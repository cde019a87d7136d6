/-
The drivers feed their stage.

Bytes in memory, a random-access source, an asynchronous one and a sequential stream have a driver
each, which differ in what they hold, fetch and refuse. Each of them feeds its stage in the sense
of `Fed` (`feeds_slice`, `feeds_readAt`, `feeds_async`, `feeds_read`), so that a stage cannot tell
them apart but by how much it is offered at once.

* `next_feeds` — a `ReadAtCursor` feeds any stage from the source, in memory or not;
* `drives_agree` — whatever driver is used, a stage that reads in order consumes the same bytes;
* `drives_retain` — no driver holds more than its limit, whatever it is driven with.
-/
import Zencodec.Io.Async
import Zencodec.Io.Stream

namespace Zencodec.Io

open Incremental (ByteRange Input InputRequest u64Max saturatingAdd)

variable {Ω ρ τ ε SE O : Type}

/-! ### Bytes in memory -/

/-- The span that a slice drive offers next. Indexing an empty list of requests panics. -/
def sliceSpan (usizeMax start stop window total : ℕ) : List InputRequest → Option (ℕ × ℕ)
  | [] => none
  | .atLeast offset minLen :: _ =>
    let s := offset % (usizeMax + 1)
    some (s, min (min (s + max minLen window) usizeMax) total)
  | .range r :: _ => some (r.offset % (usizeMax + 1), r.stop % (usizeMax + 1))
  -- Every input carries the total.
  | .len :: _ => some (start, stop)

namespace SliceCursor

variable (usizeMax : ℕ) (o : Overflow) (bytes : List UInt8)

/-- Point the next offer at the first of `requests`. What is counted is their difference. -/
def serve (requests : List InputRequest) : Act SliceCursor (Halt (DriveFailure ε SE)) Unit := do
  let c ← Act.get
  let (start, stop) ← Act.getOr
    (sliceSpan usizeMax c.start c.stop c.window bytes.length requests) .panic
  let _ ← Act.getOr (o.sub (usizeMax + 1) stop start) .panic
  Act.modify fun c => { c with start := start, stop := stop }

def driver : Driver SliceCursor ε (Halt (DriveFailure ε SE)) where
  offer := fun c => (.ok (c.offer bytes).1, (c.offer bytes).2)
  take := fun consumed c => c.take consumed
  serve := serve usizeMax o bytes
  takesFirst := true
  onStep := fun e => .error (.step e)
  onProtocol := fun v => .error (.protocol v)

/-- Step the stage over `bytes` until it produces an output. -/
def next (stage : ByteStepper τ ε O) (fuel : ℕ) :
    Act (SliceCursor × τ) (Halt (DriveFailure ε SE)) (Option (Yield O)) :=
  (driver usizeMax o bytes).next stage fuel

/-- The span is within the bytes. -/
structure Within (bytes : List UInt8) (c : SliceCursor) : Prop where
  start_le : c.start ≤ c.stop
  stop_le : c.stop ≤ bytes.length

variable {usizeMax o bytes} {c : SliceCursor}

theorem within_offer (c : SliceCursor) : Within bytes (c.offer bytes).2 :=
  ⟨min_le_right _ _, min_le_right _ _⟩

theorem Within.offer_eq (h : Within bytes c) :
    c.offer bytes = (⟨c.start, (bytes.take c.stop).drop c.start, some bytes.length⟩, c) := by
  unfold SliceCursor.offer
  dsimp only
  rw [min_eq_left h.stop_le, min_eq_left h.start_le]

theorem shows_offer (c : SliceCursor) :
    Shows bytes (c.offer bytes).1.offset (c.offer bytes).1.bytes :=
  Shows.span _ _ _

theorem Within.take (h : Within bytes c) (n : ℕ) :
    Within bytes (c.take n) ∧ ((c.take n).offer bytes).1 = (c.offer bytes).1.drop n := by
  have hstart := h.start_le
  have htake : Within bytes (c.take n) := by
    refine ⟨?_, h.stop_le⟩
    show c.start + min n (c.stop - c.start) ≤ c.stop
    omega
  refine ⟨htake, ?_⟩
  rw [htake.offer_eq, h.offer_eq]
  have hlen : ((bytes.take c.stop).drop c.start).length = c.stop - c.start := by
    rw [List.length_drop, List.length_take, min_eq_left h.stop_le]
  unfold Input.drop SliceCursor.take
  dsimp only
  rw [hlen, ← List.drop_drop, ← hlen, ← List.drop_eq_drop_min]

/-- What passed the check against the end of the bytes lies in them. -/
theorem serve_within (husize : bytes.length ≤ usizeMax) (hu64 : bytes.length ≤ u64Max)
    (h : Within bytes c) {requests : List InputRequest} (hrequests : ∀ r ∈ requests, IsU64 r)
    {i : Input} {consumed : ℕ} (htotal : i.totalLen = some bytes.length)
    (hcheck : checkNeed requests i consumed = .ok ()) :
    Act.Spec (serve usizeMax o bytes requests : Act SliceCursor (Halt (DriveFailure ε SE)) Unit)
      (fun _ c' => Within bytes c' ∧
        ∃ r ∈ requests, Met bytes r (c'.offer bytes).1)
      (fun _ _ => False) c := by
  cases requests with
  | nil => cases hcheck
  | cons r rest =>
    obtain ⟨hover, hend, -⟩ := checkNeed_ok hcheck List.mem_cons_self
    have hpast : pastEnd bytes.length r = false := hend _ htotal
    unfold serve
    simp only [Act.spec_bind, Act.spec_get, Act.spec_getOr, Act.spec_modify]
    cases r with
    | atLeast offset minLen =>
      have hle : offset ≤ bytes.length := not_lt.mp (of_decide_eq_false hpast)
      have hmod : offset % (usizeMax + 1) = offset := Nat.mod_eq_of_lt (by omega)
      simp only [sliceSpan, hmod]
      have hwithin : Within bytes { c with
          start := offset
          stop := min (min (offset + max minLen c.window) usizeMax) bytes.length } :=
        ⟨by dsimp only; omega, min_le_right _ _⟩
      refine ⟨fun p hp => ?_, fun hp => (by cases hp)⟩
      obtain rfl := Option.some_inj.mp hp
      refine ⟨fun _ _ => ⟨hwithin, _, List.mem_cons_self, .inl ?_⟩, fun hsub => ?_⟩
      · -- The span is cut at the end of the bytes only, and the total comes with it.
        rw [hwithin.offer_eq, InputRequest.isSatisfiedBy, Bool.and_eq_true, Bool.or_eq_true,
          beq_iff_eq, decide_eq_true_eq, beq_iff_eq, Input.stop, saturatingAdd, List.length_drop,
          List.length_take, Option.some_inj]
        dsimp only
        exact ⟨rfl, by omega⟩
      · rw [o.sub_of_le hwithin.start_le] at hsub
        cases hsub
    | range r =>
      have hu : r.IsU64 := hrequests _ List.mem_cons_self
      have haddr : Addressable r := not_lt.mp (of_decide_eq_false hover)
      have hle : r.stop ≤ bytes.length := not_lt.mp (of_decide_eq_false hpast)
      have hstart := hu.offset_le_stop
      have hmod : r.offset % (usizeMax + 1) = r.offset := Nat.mod_eq_of_lt (by omega)
      have hmod' : r.stop % (usizeMax + 1) = r.stop := Nat.mod_eq_of_lt (by omega)
      simp only [sliceSpan, hmod, hmod']
      have hwithin : Within bytes { c with start := r.offset, stop := r.stop } := ⟨hstart, hle⟩
      refine ⟨fun p hp => ?_, fun hp => (by cases hp)⟩
      obtain rfl := Option.some_inj.mp hp
      refine ⟨fun _ _ => ⟨hwithin, _, List.mem_cons_self, .inl ?_⟩, fun hsub => ?_⟩
      · rw [hwithin.offer_eq, InputRequest.isSatisfiedBy, Bool.and_eq_true, Bool.or_eq_true,
          beq_iff_eq, decide_eq_true_eq, List.length_drop, List.length_take]
        have hstop := haddr.stop_eq
        dsimp only
        exact ⟨rfl, .inl (by omega)⟩
      · rw [o.sub_of_le hstart] at hsub
        cases hsub
    | len =>
      simp only [sliceSpan]
      refine ⟨fun p hp => ?_, fun hp => (by cases hp)⟩
      obtain rfl := Option.some_inj.mp hp
      refine ⟨fun _ _ => ⟨h, _, List.mem_cons_self, .inl rfl⟩, fun hsub => ?_⟩
      rw [o.sub_of_le h.start_le] at hsub
      cases hsub

end SliceCursor

/-- A slice cursor feeds its stage. -/
theorem feeds_slice {usizeMax : ℕ} {o : Overflow} {bytes : List UInt8}
    (husize : bytes.length ≤ usizeMax) (hu64 : bytes.length ≤ u64Max) :
    Feeds (SliceCursor.driver usizeMax o bytes : Driver SliceCursor ε (Halt (DriveFailure ε SE)))
      bytes (fun _ => True) (SliceCursor.Within bytes) (fun c => (c.offer bytes).1)
      (fun _ => True) where
  before := fun _ _ => trivial
  shows := fun c _ => c.shows_offer
  offer := fun c _ => ⟨rfl, c.within_offer, by rw [(c.within_offer).offer_eq]; rfl⟩
  take := fun c n h => h.take n
  serve := by
    intro c i consumed requests h hrequests hi hcheck
    have htotal : i.totalLen = some bytes.length := congrArg Input.totalLen hi.symm
    exact (SliceCursor.serve_within husize hu64 h hrequests htotal hcheck).mono
      (fun _ _ hc => hc) fun _ _ hc => hc.elim

/-! ### Random access -/

namespace ReadAtCursor

def driver (mem : Memory Ω) (o : Overflow) (source : ReadAt Ω SE) :
    Driver (ReadAtCursor × Ω) ε (Halt (DriveFailure ε SE)) where
  offer := offer source
  take := fun consumed t => (t.1.take mem consumed, t.2)
  serve := serve mem o source
  takesFirst := false
  onStep := fun e => .error (.step e)
  onProtocol := fun v => .error (.protocol v)

/-- Step the stage over `source` until it produces an output. A source in memory is driven as
such. -/
def next (mem : Memory Ω) (o : Overflow) (source : ReadAt Ω SE) (stage : ByteStepper τ ε O)
    (fuel : ℕ) : Act ((ReadAtCursor × Ω) × τ) (Halt (DriveFailure ε SE)) (Option (Yield O)) := do
  Act.modify fun t =>
    if t.1.1.started = false ∧ (source.asSlice t.1.2).isSome then
      (({ t.1.1 with started := true, slice := some (.new t.1.1.opts.readSize) }, t.1.2), t.2)
    else t
  let t ← Act.get
  match t.1.1.slice with
  | some cursor => do
    -- The source stays in memory.
    let bytes ← Act.getOr (source.asSlice t.1.2) .panic
    Act.focus (fun t => (t.1.1.slice.getD cursor, t.2))
      (fun s t => (({ t.1.1 with slice := some s.1 }, t.1.2), s.2))
      (SliceCursor.next mem.usizeMax o bytes stage fuel)
  | none => (driver mem o source).next stage fuel

end ReadAtCursor

section RandomAccess

variable {mem : Memory Ω} {o : Overflow} {source : ReadAt Ω SE} {src : List UInt8}
  {opts : DriveOptions} {on : Bool} {c : ReadAtCursor} {t : ReadAtCursor × Ω}

/-- What is left of an input is offered again. -/
theorem offered_take (h : Faithful source src opts on c) (hslice : c.slice = none)
    (hlimit : opts.limits.inputBytes ≤ mem.usizeMax) (n : ℕ) :
    (c.take mem n).offered = c.offered.drop n := by
  unfold ReadAtCursor.take
  rw [hslice]
  cases hplay : c.fromFetched with
  | none =>
    rw [ReadAtCursor.offered_of_idle hplay]
    exact Window.input_consume h.window.inBuf n
  | some p =>
    obtain ⟨f, hf, hskip⟩ := h.inPlay p.1 p.2 hplay
    have hsmall := (h.fetched f (List.mem_of_getElem? hf)).small
    have hmin : min (min (p.2 + n) mem.usizeMax) f.2.data.length =
        p.2 + min n (f.2.data.length - p.2) := by omega
    have hlen : (f.2.data.drop p.2).length = f.2.data.length - p.2 := List.length_drop
    unfold ReadAtCursor.offered Input.drop
    dsimp only
    rw [hplay, hf]
    dsimp only [Option.elim]
    rw [hf, hmin, hlen, ← Nat.add_assoc, ← List.drop_drop, ← hlen, ← List.drop_eq_drop_min]

/-- A random-access cursor feeds its stage. -/
theorem feeds_readAt (hsrc : source.Over src) (hnone : ∀ w, source.asSlice w = none)
    (hlimit : opts.limits.inputBytes ≤ mem.usizeMax) :
    Feeds (ReadAtCursor.driver mem o source :
        Driver (ReadAtCursor × Ω) ε (Halt (DriveFailure ε SE)))
      src (fun t => ∃ on, Faithful source src opts on t.1)
      (fun t => Faithful source src opts true t.1) (ReadAtCursor.shown source)
      (fun _ => True) where
  before := fun _ h => ⟨true, h⟩
  shows := by
    rintro t ⟨on, h⟩
    unfold ReadAtCursor.shown
    split <;> exact h.shows_offered
  offer := by
    rintro t ⟨on, h⟩
    exact offer_shown hsrc h hnone
  take := by
    intro t n h
    have htake : Faithful source src opts true (t.1.take mem n) := take_faithful h n
    refine ⟨htake, ?_⟩
    have hafter : ReadAtCursor.shown source (t.1.take mem n, t.2) = (t.1.take mem n).offered :=
      if_pos htake.mode.started_eq
    have hbefore : ReadAtCursor.shown source t = t.1.offered := if_pos h.mode.started_eq
    rw [hbefore]
    exact hafter.trans (offered_take h (h.slice_eq hnone t.2) hlimit n)
  serve := by
    intro t i consumed requests h hrequests _ hcheck
    refine (serve_faithful hsrc h hrequests).mono (fun _ t' ht' => ⟨ht'.1, ?_⟩)
      fun _ _ ht' _ => ⟨true, ht'⟩
    obtain ⟨hserved, request, hselect, hsat⟩ := ht'
    have hmem := (select_ok hselect).1
    refine ⟨request, hmem, .inl ?_⟩
    have hshown : ReadAtCursor.shown source t' = t'.1.offered :=
      if_pos hserved.mode.started_eq
    rw [hshown]
    exact hsat (checkNeed_ok hcheck hmem).1 hlimit

/-- The cursor that drives a source in memory. -/
def ReadAtCursor.inMemory (c : ReadAtCursor) : SliceCursor :=
  if c.started then c.slice.getD (.new c.opts.readSize) else .new c.opts.readSize

/-- What a cursor offers next, of a source in memory or not. -/
def ReadAtCursor.upcoming (source : ReadAt Ω SE) (t : ReadAtCursor × Ω) : Input :=
  match source.asSlice t.2 with
  | some bytes => (t.1.inMemory.offer bytes).1
  | none => shown source t

theorem Faithful.with_slice (h : Faithful source src opts on c) (cursor : SliceCursor)
    (hall : ∀ w, source.asSlice w = some src) :
    Faithful source src opts true { c with started := true, slice := some cursor } :=
  ⟨h.window, h.fetched, h.inPlay, h.mode.opts_eq, rfl, fun _ => hall, fun _ hs => (by cases hs)⟩

/-- `next` feeds the stage, of a source in memory or not. -/
theorem next_feeds (hsrc : source.Over src) (hlimit : opts.limits.inputBytes ≤ mem.usizeMax)
    (hfits : ∀ w, (source.asSlice w).isSome → src.length ≤ mem.usizeMax)
    {stage : ByteStepper τ ε O} (hu64 : ∀ s, ∀ r ∈ stage.requested s, IsU64 r) (fuel : ℕ)
    {t : (ReadAtCursor × Ω) × τ} (h : ∃ on, Faithful source src opts on t.1.1) :
    Act.Spec (ReadAtCursor.next mem o source stage fuel)
      (fun _ t' => (∃ on, Faithful source src opts on t'.1.1) ∧
        Relation.ReflTransGen (Fed src stage) (t.2, ReadAtCursor.upcoming source t.1)
          (t'.2, ReadAtCursor.upcoming source t'.1))
      (fun _ t' => ∃ on, Faithful source src opts on t'.1.1) t := by
  obtain ⟨on, h⟩ := h
  unfold ReadAtCursor.next
  simp only [Act.spec_bind, Act.spec_modify, Act.spec_get]
  rcases hsrc.asSlice with hnone | hall
  · -- The source is not in memory: the loop is that of the driver.
    have hcond : ¬(t.1.1.started = false ∧ (source.asSlice t.1.2).isSome = true) := by
      rw [hnone]
      exact fun hand => Bool.false_ne_true hand.2
    have hupcoming : ∀ u : ReadAtCursor × Ω,
        ReadAtCursor.upcoming source u = ReadAtCursor.shown source u := by
      intro u
      unfold ReadAtCursor.upcoming
      rw [hnone]
    simp only [if_neg hcond, h.slice_eq hnone t.1.2, hupcoming]
    exact (next_fed (feeds_readAt hsrc hnone hlimit) hu64 fuel ⟨on, h⟩).mono
      (fun _ _ ht' => ht') fun _ _ ht' => ht' trivial
  · have hupcoming : ∀ u : ReadAtCursor × Ω,
        ReadAtCursor.upcoming source u = (u.1.inMemory.offer src).1 := by
      intro u
      unfold ReadAtCursor.upcoming
      rw [hall]
    have husize : src.length ≤ mem.usizeMax := hfits t.1.2 (by rw [hall]; rfl)
    -- The state in which the slice cursor is started.
    generalize hs : (if t.1.1.started = false ∧ (source.asSlice t.1.2).isSome = true then
      (({ t.1.1 with started := true, slice := some (.new t.1.1.opts.readSize) }, t.1.2), t.2)
      else t) = s
    have hready :
        s = (({ t.1.1 with started := true, slice := some t.1.1.inMemory }, t.1.2), t.2) := by
      rw [← hs, hall]
      unfold ReadAtCursor.inMemory
      by_cases hon : t.1.1.started = true
      · obtain ⟨cursor, hcursor⟩ := Option.ne_none_iff_exists'.mp fun hslice => by
          have hnone := h.mode.notInMemory hon hslice t.1.2
          rw [hall] at hnone
          cases hnone
        rw [if_neg fun hand => Bool.false_ne_true (hand.1.symm.trans hon), if_pos hon, hcursor,
          Option.getD_some, ← hcursor, ← hon]
      · rw [if_pos ⟨Bool.eq_false_iff.mpr hon, rfl⟩, if_neg hon]
    rw [hready]
    simp only [hall, Act.spec_getOr_some, Act.spec_bind, Act.spec_focus]
    refine (next_fed (feeds_slice husize hsrc.length_le) hu64 fuel trivial).mono
      (fun _ t' ht' => ⟨⟨true, h.with_slice _ hall⟩, ?_⟩)
      fun _ t' ht' => ⟨true, h.with_slice _ hall⟩
    rw [hupcoming, hupcoming]
    exact ht'.2

end RandomAccess

/-! ### Streams -/

namespace ReadCursor

def driver (mem : Memory Ω) (reader : Reader ρ SE) :
    Driver (ReadCursor × ρ × Ω) ε (Halt (PumpFailure ε SE)) where
  offer := fun t => (.ok t.1.offer, t)
  take := fun consumed t => (t.1.take consumed, t.2)
  serve := serve mem reader
  takesFirst := false
  onStep := fun e => .error (.step e)
  onProtocol := fun v => .error (.protocol v)

/-- Step the stage over the stream until it produces an output. -/
def next (mem : Memory Ω) (reader : Reader ρ SE) (stage : ByteStepper τ ε O) (fuel : ℕ) :
    Act ((ReadCursor × ρ × Ω) × τ) (Halt (PumpFailure ε SE)) (Option (Yield O)) :=
  (driver mem reader).next stage fuel

end ReadCursor

/-- A stream cursor feeds its stage, until it has no room. -/
theorem feeds_read {mem : Memory Ω} {reader : Reader ρ SE} {src : List UInt8} {pos : ρ → ℕ}
    {readSize maxWindow : ℕ} (hr : reader.Over src pos) (hsize : 0 < readSize)
    (hmax : maxWindow ≤ mem.usizeMax) :
    Feeds (ReadCursor.driver mem reader :
        Driver (ReadCursor × ρ × Ω) ε (Halt (PumpFailure ε SE)))
      src (Aligned src pos readSize maxWindow) (Aligned src pos readSize maxWindow)
      (fun t => t.1.offer) (fun e => ∀ i, e ≠ .error (.input i)) where
  before := fun _ h => h
  shows := fun _ h => h.window.shows
  offer := fun _ h => ⟨rfl, h, rfl⟩
  take := fun _ n h => ⟨h.consume n, Window.input_consume h.window.inBuf n⟩
  serve := by
    intro t i consumed requests h _ _ hcheck
    have hne : requests ≠ [] := by
      rintro rfl
      cases hcheck
    refine (serve_spec hr hsize hmax h hne).mono (fun _ t' ht' => ⟨ht'.1, ?_⟩)
      fun _ _ ht' => ht'.aligned
    obtain ⟨request, hpick⟩ := Option.ne_none_iff_exists'.mp (@pick_ne_none t.1.window.base _ hne)
    exact ⟨request, pick_mem hpick, ht'.2 request hpick⟩

/-! ### Runs -/

/-- One call of `next`, with its result. -/
def ReadAtCursor.nextStep (mem : Memory Ω) (o : Overflow) (source : ReadAt Ω SE)
    (stage : ByteStepper τ ε O) (t : (ReadAtCursor × Ω) × τ) (fuel : ℕ) :
    Except (Halt (DriveFailure ε SE)) (Option (Yield O)) × ((ReadAtCursor × Ω) × τ) :=
  ReadAtCursor.next mem o source stage fuel t

/-- **What the stage sees, over a whole drive.** Calls that succeed feed the stage from the source,
from the first input on. -/
theorem fed_of_run (mem : Memory Ω) (o : Overflow) {source : ReadAt Ω SE} {src : List UInt8}
    (hsrc : source.Over src) (hfits : ∀ w, (source.asSlice w).isSome → src.length ≤ mem.usizeMax)
    {opts : DriveOptions} (hlimit : opts.limits.inputBytes ≤ mem.usizeMax)
    {stage : ByteStepper τ ε O} (hu64 : ∀ s, ∀ r ∈ stage.requested s, IsU64 r) (w : Ω) (s : τ)
    (fuels : List ℕ)
    (hok : ∀ r ∈ Runs.outputs (ReadAtCursor.nextStep mem o source stage) ((.new opts, w), s) fuels,
      r.isOk = true) :
    let t := Runs.final (ReadAtCursor.nextStep mem o source stage) ((.new opts, w), s) fuels
    Relation.ReflTransGen (Fed src stage) (s, ReadAtCursor.upcoming source (.new opts, w))
      (t.2, ReadAtCursor.upcoming source t.1) := by
  refine (Runs.final_of_outputs (P := fun t => (∃ on, Faithful source src opts on t.1.1) ∧
    Relation.ReflTransGen (Fed src stage) (s, ReadAtCursor.upcoming source (.new opts, w))
      (t.2, ReadAtCursor.upcoming source t.1)) ?_ ⟨⟨false, faithful_new source src opts⟩, .refl⟩
    hok).2
  rintro t fuel ⟨h, hfed⟩ hy
  obtain ⟨y, hy⟩ := exists_of_isOk hy
  obtain ⟨hnext, hrest⟩ := (next_feeds hsrc hlimit hfits hu64 fuel h).run.1 y hy
  exact ⟨hnext, hfed.trans hrest⟩

theorem aligned_new {src : List UInt8} {pos : ρ → ℕ} {r : ρ} (hpos : pos r = 0)
    (readSize maxWindow : ℕ) (w : Ω) :
    Aligned src pos (max readSize 512) maxWindow (.new readSize maxWindow, r, w) where
  window := ⟨Window.inBuf_new, Shows.nil _ _⟩
  capacity := Nat.zero_le _
  readSize_eq := rfl
  maxWindow_eq := rfl
  pos_eq := hpos
  within := Nat.zero_le _
  total := fun _ hn => (by cases hn)

/-- What a driver offers before anything was read. -/
theorem upcoming_new (source : ReadAt Ω SE) (opts : DriveOptions) (w : Ω) :
    (ReadAtCursor.upcoming source (.new opts, w)).offset = 0 ∧
      (ReadAtCursor.upcoming source (.new opts, w)).bytes = [] := by
  unfold ReadAtCursor.upcoming
  split
  · next bytes _ =>
    constructor
    · show min 0 (min 0 bytes.length) = 0
      exact Nat.zero_min _
    · show (bytes.take (min 0 bytes.length)).drop (min 0 (min 0 bytes.length)) = []
      rw [Nat.zero_min, Nat.zero_min, List.take_zero, List.drop_nil]
  · exact ⟨rfl, rfl⟩

/-- Calls of `next` that succeed have the stage consume the start of `src`. -/
def ReadsStart {σ E : Type} (next : σ × τ → ℕ → Except E (Option (Yield O)) × (σ × τ))
    (src : List UInt8) (consumed : τ → List UInt8) (t : σ × τ) : Prop :=
  ∀ fuels, (∀ r ∈ Runs.outputs next t fuels, r.isOk = true) →
    consumed (Runs.final next t fuels).2 <+: src

theorem prefix_of_fed {src : List UInt8} {stage : ByteStepper τ ε O} {consumed : τ → List UInt8}
    (hseq : Sequential stage consumed) {a b : τ × Input}
    (h : Relation.ReflTransGen (Fed src stage) a b) (hnew : consumed a.1 = [])
    (hoffset : a.2.offset = 0) (hshows : Shows src a.2.offset a.2.bytes) :
    consumed b.1 <+: src := by
  have hstart : Shows src 0 (consumed a.1) := by
    rw [hnew]
    exact Shows.nil _ _
  have hzero : a.2.offset = (consumed a.1).length := by
    rw [hnew, hoffset]
    rfl
  have hread := (consumed_start hseq h hstart hzero hshows).1
  rwa [Shows, List.drop_zero] at hread

theorem Feeds.readsStart {σ E : Type} {d : Driver σ ε E} {src : List UInt8} {I J : σ → Prop}
    {offered : σ → Input} {Kept : E → Prop} (h : Feeds d src I J offered Kept)
    {stage : ByteStepper τ ε O} (hu64 : ∀ s, ∀ r ∈ stage.requested s, IsU64 r)
    {consumed : τ → List UInt8} (hseq : Sequential stage consumed) {t : σ × τ} (hI : I t.1)
    (hnew : consumed t.2 = []) (hoffset : (offered t.1).offset = 0) :
    ReadsStart (d.nextStep stage) src consumed t := by
  intro fuels hok
  exact prefix_of_fed hseq (run_fed h hu64 hI hok).2 hnew hoffset (h.shows _ hI)

/-- **All drivers read the same bytes.** A stage that reads in order consumes the start of the
source: over random access, whether the source is in memory or read a little at a time, over
what arrives asynchronously, over bytes in memory and over a stream. -/
theorem drives_agree {src : List UInt8} {stage : ByteStepper τ ε O} {consumed : τ → List UInt8}
    (hseq : Sequential stage consumed) (hu64 : ∀ s, ∀ r ∈ stage.requested s, IsU64 r) {s : τ}
    (hnew : consumed s = []) (mem : Memory Ω) (o : Overflow) (w : Ω) :
    (∀ (source : ReadAt Ω SE) (opts : DriveOptions), source.Over src →
      (∀ w, (source.asSlice w).isSome → src.length ≤ mem.usizeMax) →
      opts.limits.inputBytes ≤ mem.usizeMax →
      ReadsStart (ReadAtCursor.nextStep mem o source stage) src consumed ((.new opts, w), s)) ∧
    (∀ (source : AsyncSource Ω SE) (opts : DriveOptions), source.Over src →
      opts.limits.inputBytes ≤ mem.usizeMax →
      ReadsStart ((AsyncCursor.driver mem o source :
        Driver (AsyncCursor × Ω) ε (Halt (DriveFailure ε SE))).nextStep stage) src consumed
        ((.new opts, w), s)) ∧
    (∀ window : ℕ, src.length ≤ mem.usizeMax → src.length ≤ u64Max →
      ReadsStart ((SliceCursor.driver mem.usizeMax o src :
        Driver SliceCursor ε (Halt (DriveFailure ε SE))).nextStep stage) src consumed
        (.new window, s)) ∧
    (∀ (reader : Reader ρ SE) (pos : ρ → ℕ) (r : ρ) (readSize maxWindow : ℕ),
      reader.Over src pos → pos r = 0 → maxWindow ≤ mem.usizeMax →
      ReadsStart ((ReadCursor.driver mem reader :
        Driver (ReadCursor × ρ × Ω) ε (Halt (PumpFailure ε SE))).nextStep stage) src consumed
        ((.new readSize maxWindow, r, w), s)) := by
  refine ⟨fun source opts hsrc hfits hlimit fuels hok => ?_, fun source opts hsrc hlimit => ?_,
    fun window husize hlen => ?_, fun reader pos r readSize maxWindow hr hpos hmax => ?_⟩
  · obtain ⟨hoffset, hbytes⟩ := upcoming_new source opts w
    refine prefix_of_fed hseq (fed_of_run mem o hsrc hfits hlimit hu64 w s fuels hok) hnew hoffset
      ?_
    dsimp only
    rw [hbytes]
    exact Shows.nil _ _
  · exact (feeds_async hsrc hlimit).readsStart hu64 hseq
      ⟨false, faithful_new source.waiting src opts, rfl⟩ hnew rfl
  · exact (feeds_slice husize hlen).readsStart hu64 hseq trivial hnew (Nat.zero_min _)
  · have hsize : 0 < max readSize 512 := lt_of_lt_of_le (by decide) (le_max_right _ _)
    exact (feeds_read hr hsize hmax).readsStart hu64 hseq (aligned_new hpos readSize maxWindow w)
      hnew rfl

/-- Whether a call failed for want of room. -/
def noRoom {α : Type} : Except (Halt (PumpFailure ε SE)) α → Bool
  | .error (.error (.input _)) => true
  | _ => false

/-- **A stream stays aligned.** Whatever the stage does, whether calls succeed, the stage fails or
reading fails and is tried again: unless a call had no room, what is offered next is a part of the
stream, a length that comes with it is that of the stream, and the window is within its limit. -/
theorem aligned_of_run (mem : Memory Ω) {reader : Reader ρ SE} {src : List UInt8} {pos : ρ → ℕ}
    (hr : reader.Over src pos) {r : ρ} (hpos : pos r = 0) (readSize : ℕ) {maxWindow : ℕ}
    (hmax : maxWindow ≤ mem.usizeMax) {stage : ByteStepper τ ε O}
    (hu64 : ∀ s, ∀ r ∈ stage.requested s, IsU64 r) (w : Ω) (s : τ) (fuels : List ℕ)
    (hroom : ∀ x ∈ Runs.outputs ((ReadCursor.driver mem reader :
        Driver (ReadCursor × ρ × Ω) ε (Halt (PumpFailure ε SE))).nextStep stage)
        ((.new readSize maxWindow, r, w), s) fuels, noRoom x = false) :
    let t := Runs.final ((ReadCursor.driver mem reader :
      Driver (ReadCursor × ρ × Ω) ε (Halt (PumpFailure ε SE))).nextStep stage)
      ((.new readSize maxWindow, r, w), s) fuels
    Shows src t.1.1.offer.offset t.1.1.offer.bytes ∧
      (∀ n, t.1.1.offer.totalLen = some n → n = src.length) ∧
      t.1.1.retainedInputCapacity ≤ maxWindow := by
  have hsize : 0 < max readSize 512 := lt_of_lt_of_le (by decide) (le_max_right _ _)
  have hkept : Aligned src pos (max readSize 512) maxWindow
      (Runs.final ((ReadCursor.driver mem reader :
        Driver (ReadCursor × ρ × Ω) ε (Halt (PumpFailure ε SE))).nextStep stage)
        ((.new readSize maxWindow, r, w), s) fuels).1 := by
    refine run_kept (feeds_read hr hsize hmax) hu64 (aligned_new hpos readSize maxWindow w)
      fun x hx e he i hi => ?_
    have hno := hroom x hx
    rw [he, hi] at hno
    cases hno
  exact ⟨hkept.window.shows, fun n hn => (hkept.total n hn).1, hkept.capacity⟩

/-! ### What is retained -/

/-- `next` keeps what a random-access cursor retains within the limit. -/
theorem keeps_nextStep (mem : Memory Ω) (o : Overflow) (source : ReadAt Ω SE)
    (stage : ByteStepper τ ε O) {limits : IoLimits} (fuel : ℕ) :
    Act.Keeps (ReadAtCursor.next mem o source stage fuel) (fun t => Kept mem limits t.1) := by
  unfold ReadAtCursor.next
  refine Act.Keeps.bind (Act.keeps_modify fun t h => ?_) fun _ => Act.keeps_get.bind fun t => ?_
  · split
    · exact ⟨h.limits_eq, h.inBuf, h.capacity⟩
    · exact h
  · cases t.1.1.slice with
    | some cursor =>
      refine (Act.keeps_getOr _ _).bind fun bytes u h => ?_
      -- Over bytes in memory the window and the buffers stay as they are.
      exact Act.spec_of_run (fun _ _ => ⟨h.limits_eq, h.inBuf, h.capacity⟩)
        fun _ _ => ⟨h.limits_eq, h.inBuf, h.capacity⟩
    | none =>
      exact keeps_next (ReadAtCursor.driver mem o source) stage (Kept mem limits)
        (keeps_offer source) (fun t n h => retains_take h n) (keeps_serve o source) fuel

/-- `next` keeps the window of a stream cursor within its limit. -/
theorem keeps_read (mem : Memory Ω) (reader : Reader ρ SE) (stage : ByteStepper τ ε O)
    {maxWindow : ℕ} (fuel : ℕ) :
    Act.Keeps ((ReadCursor.driver mem reader :
        Driver (ReadCursor × ρ × Ω) ε (Halt (PumpFailure ε SE))).next stage fuel)
      (fun t => t.1.1.Small maxWindow) :=
  keeps_next (ReadCursor.driver mem reader) stage (fun t => t.1.Small maxWindow)
    (fun _ h => h) (fun _ n h => h.consume n) keeps_serveStream fuel

/-- **No drive retains more than its limit.** Whatever the stage does, the source answers and the
allocator gives, and whether calls succeed or fail. -/
theorem drives_retain (stage : ByteStepper τ ε O) (mem : Memory Ω) (o : Overflow) (w : Ω) (s : τ)
    (fuels : List ℕ) :
    (∀ (source : ReadAt Ω SE) (opts : DriveOptions), opts.limits.inputBytes ≤ mem.usizeMax →
      (Runs.final (ReadAtCursor.nextStep mem o source stage) ((.new opts, w), s)
        fuels).1.1.retainedInputCapacity mem.usizeMax ≤ opts.limits.inputBytes) ∧
    (∀ (source : AsyncSource Ω SE) (opts : DriveOptions), opts.limits.inputBytes ≤ mem.usizeMax →
      (Runs.final ((AsyncCursor.driver mem o source :
        Driver (AsyncCursor × Ω) ε (Halt (DriveFailure ε SE))).nextStep stage) ((.new opts, w), s)
        fuels).1.1.retainedInputCapacity mem.usizeMax ≤ opts.limits.inputBytes) ∧
    (∀ (reader : Reader ρ SE) (r : ρ) (readSize maxWindow : ℕ),
      (Runs.final ((ReadCursor.driver mem reader :
        Driver (ReadCursor × ρ × Ω) ε (Halt (PumpFailure ε SE))).nextStep stage)
        ((.new readSize maxWindow, r, w), s) fuels).1.1.retainedInputCapacity ≤ maxWindow) := by
  refine ⟨fun source opts hlimit => ?_, fun source opts hlimit => ?_,
    fun reader r readSize maxWindow => ?_⟩
  · exact (keeps_run (Kept mem opts.limits) (ReadAtCursor.nextStep mem o source stage)
      (keeps_nextStep mem o source stage) ((.new opts, w), s) (retains_new mem opts)
      fuels).retained_le hlimit
  · exact (keeps_run (fun t : AsyncCursor × Ω => Retains mem opts.limits t.1.shared)
      ((AsyncCursor.driver mem o source).nextStep stage) (keeps_async mem o source stage)
      ((.new opts, w), s) (retains_new mem opts) fuels).retained_le hlimit
  · exact (keeps_run (fun t : ReadCursor × ρ × Ω => t.1.Small maxWindow)
      ((ReadCursor.driver mem reader).nextStep stage) (keeps_read mem reader stage)
      ((.new readSize maxWindow, r, w), s) ⟨Window.inBuf_new, Nat.zero_le _, rfl⟩ fuels).capacity

/-! ### A stage that collects -/

/-- Bytes that have an address each. -/
def Collected : Type := { l : List UInt8 // l.length ≤ u64Max }

/-- Collects all bytes, and is done at the end. -/
def collector : ByteStepper Collected Unit Unit where
  step := fun i s =>
    if h : (s.1 ++ i.bytes).length ≤ u64Max then
      (.ok ⟨i.bytes.length, if i.totalLen = some i.stop then .finished () else .need⟩,
        ⟨s.1 ++ i.bytes, h⟩)
    else (.error (), s)
  requested := fun s => [.atLeast s.1.length 1]

theorem collector_sequential : Sequential collector Subtype.val where
  consumes := by
    intro i s p t h
    simp only [collector] at h
    split at h
    · cases h
      exact congrArg (s.1 ++ ·) List.take_length.symm
    · cases h
  asks := by
    intro i s p t _ _ r hr
    obtain rfl := List.mem_singleton.mp hr
    rfl

theorem collector_isU64 (s : Collected) : ∀ r ∈ collector.requested s, IsU64 r := by
  intro r hr
  obtain rfl := List.mem_singleton.mp hr
  exact ⟨s.2, by decide⟩

def noneCollected : Collected := ⟨[], Nat.zero_le _⟩

/-- Reads a list from a position. -/
def listReader (src : List UInt8) : Reader ℕ Unit where
  read := fun out pos =>
    ((.ok (min out.length (src.length - pos)), overwrite src pos out),
      pos + min out.length (src.length - pos))
  length_read := fun out pos => length_overwrite src pos out
  le_of_read := fun _ _ _ h => (Except.ok.inj h) ▸ min_le_left _ _

theorem over_listReader {src : List UInt8} (h : src.length ≤ u64Max) :
    (listReader src).Over src id where
  length_le := h
  read := by
    intro out pos n hn
    obtain rfl := Except.ok.inj hn
    exact ⟨rfl, shows_take_overwrite src pos out⟩
  failed := fun _ _ _ he => (by cases he)
  ended := by
    intro out pos hn
    have hmin : min out.length (src.length - pos) = 0 := Except.ok.inj hn
    rcases Nat.eq_zero_or_pos out.length with hzero | hpos
    · exact .inl (List.eq_nil_of_length_eq_zero hzero)
    · exact .inr (show src.length ≤ pos by omega)

def dozen : List UInt8 := [1, 2, 3, 4, 5, 6, 7, 8, 9, 10, 11, 12]

/-- Four bytes at a time are read, until the end is found. -/
def collectRun : (ReadAtCursor × Unit) × Collected :=
  Runs.final (ReadAtCursor.nextStep plainMemory .panics (streamSource dozen) collector)
    ((.new smallOptions, ()), noneCollected) [10]

theorem fed_of_run_collectRun :
    Relation.ReflTransGen (Fed dozen collector)
      (noneCollected, ReadAtCursor.upcoming (streamSource dozen) (.new smallOptions, ()))
      (collectRun.2, ReadAtCursor.upcoming (streamSource dozen) collectRun.1) ∧
    collectRun.2.1 = dozen := by
  refine ⟨?_, by decide +kernel⟩
  unfold collectRun
  exact fed_of_run plainMemory .panics (over_streamSource (by decide))
    (fun _ h => (Bool.false_ne_true h).elim) (by decide) collector_isU64 () noneCollected [10]
    (by decide +kernel)

/-- The same source, with reads that are ready at once and ranges that are read one by one. -/
def asyncRun : (AsyncCursor × Unit) × Collected :=
  Runs.final ((AsyncCursor.driver plainMemory .panics
      (AsyncSource.ready (streamSource dozen) fun _ _ _ => ()).sequential :
    Driver (AsyncCursor × Unit) Unit (Halt (DriveFailure Unit Unit))).nextStep collector)
    ((.new smallOptions, ()), noneCollected) [10]

/-- The slice is offered five bytes at a time. -/
def sliceRun : SliceCursor × Collected :=
  Runs.final ((SliceCursor.driver u64Max .panics dozen :
    Driver SliceCursor Unit (Halt (DriveFailure Unit Unit))).nextStep collector)
    (.new 5, noneCollected) [10]

/-- The stream is read into a window of sixteen bytes. -/
def streamRun : (ReadCursor × ℕ × Unit) × Collected :=
  Runs.final ((ReadCursor.driver plainMemory (listReader dozen) :
    Driver (ReadCursor × ℕ × Unit) Unit (Halt (PumpFailure Unit Unit))).nextStep collector)
    ((.new 4 16, 0, ()), noneCollected) [10]

theorem drives_agree_dozen :
    collectRun.2.1 <+: dozen ∧ asyncRun.2.1 <+: dozen ∧ sliceRun.2.1 <+: dozen ∧
      streamRun.2.1 <+: dozen := by
  obtain ⟨hread, hasync, hslice, hstream⟩ :=
    @drives_agree Unit ℕ Collected Unit Unit Unit dozen collector Subtype.val collector_sequential
      collector_isU64 noneCollected rfl plainMemory .panics ()
  unfold collectRun asyncRun sliceRun streamRun
  refine ⟨?_, ?_, ?_, ?_⟩
  · exact hread (streamSource dozen) smallOptions (over_streamSource (by decide))
      (fun _ h => (Bool.false_ne_true h).elim) (by decide) [10] (by decide +kernel)
  · exact hasync (AsyncSource.ready (streamSource dozen) fun _ _ _ => ()).sequential smallOptions
      (AsyncSource.over_sequential (by decide) (over_streamSource (by decide)).ready.readAt)
      (by decide) [10] (by decide +kernel)
  · exact hslice 5 (by decide) (by decide) [10] (by decide +kernel)
  · exact hstream (listReader dozen) id 0 4 16 (over_listReader (by decide)) rfl (by decide) [10]
      (by decide +kernel)

theorem drives_retain_dozen :
    collectRun.1.1.retainedInputCapacity u64Max ≤ 16 ∧
      asyncRun.1.1.retainedInputCapacity u64Max ≤ 16 ∧
      streamRun.1.1.retainedInputCapacity ≤ 16 := by
  obtain ⟨hread, hasync, hstream⟩ :=
    @drives_retain Unit ℕ Collected Unit Unit Unit collector plainMemory .panics () noneCollected
      [10]
  unfold collectRun asyncRun streamRun
  exact ⟨hread (streamSource dozen) smallOptions (by decide),
    hasync (AsyncSource.ready (streamSource dozen) fun _ _ _ => ()).sequential smallOptions
      (by decide),
    hstream (listReader dozen) 0 4 16⟩

theorem aligned_of_run_streamRun :
    Shows dozen streamRun.1.1.offer.offset streamRun.1.1.offer.bytes ∧
      (∀ n, streamRun.1.1.offer.totalLen = some n → n = dozen.length) ∧
      streamRun.1.1.retainedInputCapacity ≤ 16 := by
  unfold streamRun
  exact aligned_of_run plainMemory (over_listReader (by decide)) rfl 4 (by decide) collector_isU64
    () noneCollected [10] (by decide +kernel)

end Zencodec.Io
