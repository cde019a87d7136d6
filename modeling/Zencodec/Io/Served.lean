/-
Serving what a stage asked for.

Each way to serve a request keeps what the cursor holds a part of its source, also where it
fails, and where it succeeds the next input satisfies the request: from the window, from a
buffer that was fetched, from the tail that was read behind the held bytes, or from a new round.

* `offered_of_run` — after any calls the next input is a part of the source;
* `served_of_run` — and after a request was served, the next input satisfies it.
-/
import Zencodec.Io.Feed

namespace Zencodec.Io

open Incremental (ByteRange Input InputRequest u64Max saturatingAdd)

variable {Ω ε SE : Type}

section Calls

variable {mem : Memory Ω} {o : Overflow} {source : ReadAt Ω SE} {src : List UInt8}
  {opts : DriveOptions} {on : Bool} {c : ReadAtCursor} {t : ReadAtCursor × Ω}

/-! ### Serving -/

/-- Moving the window leaves a part of the source that starts where it was asked to. -/
theorem position_faithful (h : Idle source src opts on t.1) (offset : ℕ) :
    Act.Spec (ReadAtCursor.position offset : Drive Ω ε SE Bool)
      (fun retained t' => Idle source src opts on t'.1 ∧ t'.1.opts = t.1.opts ∧
        t'.1.window.base = offset ∧ (retained = true →
          (∃ f ∈ t.1.fetched, f.1 ≤ offset ∧
            t'.1.window.endOffset = f.1 + f.2.data.length) ∨
          t.1.window.base ≤ offset ∧ t'.1.window.endOffset = t.1.window.endOffset))
      (fun _ _ => False) t := by
  unfold ReadAtCursor.position update
  simp only [Act.spec_bind, Act.spec_get, Act.spec_modify, Act.spec_pure]
  rcases t.1.window.position_cases offset t.1.fetched with
    ⟨f, i, hf, hstart, hstop, heq⟩ | ⟨hbase, hend, heq⟩ | heq <;> rw [heq]
  · -- The bytes of a buffer become those of the window.
    have hmem := List.mem_of_getElem? hf
    have hover := Window.over_adopt t.1.window (h.fetched f hmem).shows
    have hstop' : offset < f.1 + f.2.data.length := lt_of_lt_of_le hstop (min_le_left _ _)
    have hlen : (t.1.window.adopt f.1 f.2).len = f.2.data.length := Nat.sub_zero _
    refine ⟨(h.with_window (hover.consume _)).with_fetched fun g hg => h.fetched g ?_, trivial, ?_,
      fun _ => .inl ⟨f, hmem, hstart, ?_⟩⟩
    · exact (swapRemove_perm hf).mem_iff.mpr (List.mem_cons_of_mem _ hg)
    · rw [Window.base_consume, hlen]
      show f.1 + min (offset - f.1) f.2.data.length = offset
      omega
    · rw [Window.endOffset_consume hover.inBuf, Window.endOffset, hlen]
      rfl
  · refine ⟨h.with_window (h.window.consume _), trivial, ?_, fun _ => .inr ⟨hbase, ?_⟩⟩
    · rw [Window.base_consume]
      have : t.1.window.endOffset = t.1.window.base + t.1.window.len := rfl
      omega
    · exact Window.endOffset_consume h.window.inBuf _
  · exact ⟨h.with_window (Window.over_resetTo src _ offset), trivial, rfl, fun hno => by cases hno⟩

/-- A window that starts at the offset satisfies a request for its length, or at the end. -/
theorem satisfies_atLeast (hsrc : source.Over src) (h : Idle source src opts on c)
    {offset minLen : ℕ} (hbase : c.window.base = offset) (haddr : offset ≤ u64Max)
    (hlen : minLen ≤ c.window.len ∨ c.window.total = some c.window.endOffset) :
    (InputRequest.atLeast offset minLen).isSatisfiedBy c.offered = true := by
  have hbytes := Window.length_bytes h.window.inBuf
  rw [ReadAtCursor.offered_of_idle h.idle, InputRequest.isSatisfiedBy, Bool.and_eq_true,
    Bool.or_eq_true, beq_iff_eq, decide_eq_true_eq, beq_iff_eq]
  refine ⟨hbase, hlen.imp (fun hle => hle.trans hbytes.ge) fun htotal => ?_⟩
  have hend := h.window.endOffset_le hsrc.length_le (hbase ▸ haddr)
  rw [Window.input, htotal, Input.stop, saturatingAdd, hbytes]
  exact congrArg some (min_eq_left hend).symm

theorem satisfies_range (h : Idle source src opts on c) {r : ByteRange}
    (hbase : c.window.base = r.offset) (hlen : r.length ≤ c.window.len) :
    (InputRequest.range r).isSatisfiedBy c.offered = true := by
  rw [ReadAtCursor.offered_of_idle h.idle, InputRequest.isSatisfiedBy, Bool.and_eq_true,
    Bool.or_eq_true, beq_iff_eq, decide_eq_true_eq]
  exact ⟨hbase, .inl (hlen.trans (Window.length_bytes h.window.inBuf).ge)⟩

theorem serveAtLeast_faithful (hsrc : source.Over src) (h : Faithful source src opts on t.1)
    (offset minLen : ℕ) :
    Act.Spec (ReadAtCursor.serveAtLeast mem o source offset minLen : Drive Ω ε SE Unit)
      (fun _ t' => Faithful source src opts on t'.1 ∧
        (offset + minLen ≤ u64Max → minLen ≤ t.1.opts.limits.inputBytes →
          minLen ≤ mem.usizeMax →
          (InputRequest.atLeast offset minLen).isSatisfiedBy t'.1.offered = true))
      (fun _ t' => Faithful source src opts on t'.1) t := by
  simp only [ReadAtCursor.serveAtLeast, Act.spec_bind, update, Act.spec_modify]
  refine (position_faithful h.idle offset).mono (fun _ t' ht' => ?_) fun _ _ h => h.elim
  obtain ⟨hidle, hopts, hbase, -⟩ := ht'
  have hsame : t'.1.opts = t.1.opts := hopts
  simp only [Act.spec_get, Act.spec_ite, Act.spec_pure]
  constructor
  · -- Enough is held as it is.
    intro hheld
    refine ⟨hidle.toFaithful, fun haddr _ _ => ?_⟩
    exact satisfies_atLeast hsrc hidle hbase (by omega) (.inl ((le_max_left _ _).trans hheld))
  · intro _
    rw [orInput, Act.spec_bind, Act.spec_lift]
    refine ⟨fun _ _ => ?_, fun _ _ => hidle.toFaithful⟩
    simp only [Act.spec_bind, Act.spec_modify]
    generalize htarget : min (min (readTarget mem.usizeMax minLen t'.1.opts.readSize)
      t'.1.opts.limits.inputBytes) (min (u64Max - offset) mem.usizeMax) = target
    refine (fillLoop_faithful hsrc target (target + 1)
      (hidle.makeRoom mem.usizeMax target t'.1.opts.limits)).mono (fun _ u hu => ?_)
      fun _ u hu => hu.toFaithful
    obtain ⟨hu, hubase, hdone⟩ := hu
    refine ⟨hu.toFaithful, fun haddr hlimit husize => ?_⟩
    -- None of the bounds cuts the target below what was asked for.
    have hle : minLen ≤ target := by
      have hread := le_readTarget t'.1.opts.readSize husize
      have hle : minLen ≤ t'.1.opts.limits.inputBytes := hsame ▸ hlimit
      omega
    have hcap : target ≤ u64Max - offset ∧ target ≤ mem.usizeMax := by omega
    refine satisfies_atLeast hsrc hu (hubase.trans hbase) (by omega)
      ((hdone ?_ hcap.2 (.inl (by omega))).imp_left hle.trans)
    show t'.1.window.base + target ≤ u64Max
    omega

/-- The tail that is read leaves the range in the window, and no more. -/
theorem readTail_faithful (hsrc : source.Over src) (h : Idle source src opts on t.1)
    (first : ByteRange) :
    Act.Spec (ReadAtCursor.readTail mem o source first : Drive Ω ε SE Unit)
      (fun _ t' => Idle source src opts on t'.1 ∧ t'.1.window.base = t.1.window.base ∧
        (Addressable first → t.1.window.base = first.offset →
          t.1.window.endOffset ≤ first.stop → first.length ≤ mem.usizeMax →
          t'.1.window.len = first.length))
      (fun _ t' => Idle source src opts on t'.1) t := by
  unfold ReadAtCursor.readTail orInput update
  simp only [Act.spec_bind, Act.spec_get, Act.spec_getOr, Act.spec_lift, Act.spec_modify]
  refine ⟨fun missing hmissing => ⟨fun _ _ => ?_, fun _ _ => h⟩, fun _ => h⟩
  have hroom := h.makeRoom mem.usizeMax (first.length % (mem.usizeMax + 1)) t.1.opts.limits
  refine roomLeft_spec.mono (fun room t' ht' => ?_) fun _ t' ht' => ht' ▸ hroom
  have hidle : Idle source src opts on t'.1 := by
    rw [ht']
    exact hroom
  have hwindow : t'.1.window = t.1.window := by rw [ht']
  have hread : Act.Spec (readBehind mem _ room _ : Drive Ω ε SE Unit) _ _ t' :=
    readBehind_faithful (missing % (mem.usizeMax + 1)) room
      (fun out w => source.length_readExactAt t.1.window.endOffset out w) hidle
  unfold readBehind at hread
  rw [Act.spec_bind] at hread
  refine hread.mono (fun _ s hs => hs.mono (fun n u hu => ?_) fun _ _ hu => hu) fun _ _ hs => hs
  obtain ⟨hidle', hext⟩ := hu.commit hidle
    (fun out w => source.length_readExactAt t.1.window.endOffset out w) le_rfl
    (fun out w hok => hwindow ▸ (hsrc.readExactAt _ out w hok).take _)
  rw [hwindow] at hext
  refine ⟨hidle', hext.base, fun haddr hstart hle husize => ?_⟩
  -- What is missing is the rest of the range, and fits a `usize` as the range does.
  have hend : t.1.window.endOffset = t.1.window.base + t.1.window.len := rfl
  have hstop := haddr.stop_eq
  rw [o.sub_of_le hle, Option.some_inj] at hmissing
  have hmod : missing % (mem.usizeMax + 1) = missing := Nat.mod_eq_of_lt (by omega)
  have hlen' : (u.1.window.commit (missing % (mem.usizeMax + 1))).len =
      t.1.window.len + missing % (mem.usizeMax + 1) := hext.len
  rw [hmod] at hlen' ⊢
  omega

/-! ### Fetched buffers -/

theorem nat_le {o : Overflow} {w n m : ℕ} (h : o.nat w n = some m) : m ≤ n := by
  unfold Overflow.nat at h
  split at h
  · exact (Option.some_inj.mp h).ge
  · cases o with
    | panics => cases h
    | wraps => exact (Option.some_inj.mp h) ▸ Nat.mod_le _ _

/-- What was found holds the range. -/
theorem findHolding_some {first : ByteRange} {fetched : List Fetched} {i : ℕ} {f : Fetched}
    (h : findHolding o first fetched = some (some i)) (hf : fetched[i]? = some f) :
    f.1 ≤ first.offset ∧ first.stop ≤ f.1 + f.2.data.length := by
  induction fetched generalizing i with
  | nil => cases h
  | cons g rest ih =>
    rw [findHolding, Option.bind_eq_bind, Option.bind_eq_some_iff] at h
    obtain ⟨held, hheld, h⟩ := h
    cases held with
    | true =>
      obtain rfl : 0 = i := Option.some_inj.mp (Option.some_inj.mp h)
      obtain rfl : g = f := Option.some_inj.mp hf
      unfold holds at hheld
      split at hheld
      · next hstart =>
        obtain ⟨stop, hstop, hle⟩ := Option.bind_eq_some_iff.mp hheld
        exact ⟨hstart, (of_decide_eq_true (Option.some_inj.mp hle)).trans (nat_le hstop)⟩
      · cases hheld
    | false =>
      obtain ⟨found, hfound, h⟩ := Option.bind_eq_some_iff.mp h
      cases found with
      | none => cases h
      | some j =>
        obtain rfl : j + 1 = i := Option.some_inj.mp (Option.some_inj.mp h)
        exact ih hfound hf

/-- Where nothing was found, no buffer that starts before the range reaches its end. -/
theorem findHolding_none {first : ByteRange} {fetched : List Fetched}
    (h : findHolding o first fetched = some none) {f : Fetched} (hf : f ∈ fetched)
    (haddr : Addressable f.range) (hstart : f.1 ≤ first.offset) :
    f.1 + f.2.data.length < first.stop := by
  induction fetched with
  | nil => cases hf
  | cons g rest ih =>
    rw [findHolding, Option.bind_eq_bind, Option.bind_eq_some_iff] at h
    obtain ⟨held, hheld, h⟩ := h
    cases held with
    | true => cases Option.some_inj.mp h
    | false =>
      rcases List.mem_cons.mp hf with rfl | hf
      · rw [holds_eq haddr, Option.some_inj, decide_eq_false_iff_not] at hheld
        have hstop : f.range.stop = f.1 + f.2.data.length := haddr.stop_eq
        exact hstop ▸ not_le.mp fun hle => hheld ⟨hstart, hle⟩
      · obtain ⟨found, hfound, h⟩ := Option.bind_eq_some_iff.mp h
        cases found with
        | none => exact ih hfound hf
        | some j => cases h

/-- A buffer of bytes of the source has an end. -/
theorem addressable_of_shows (hsrc : source.Over src) {f : Fetched} (hf : Shows src f.1 f.2.data)
    (hstart : f.1 ≤ u64Max) : Addressable f.range := by
  rcases hf.stop_le with hnil | hle
  · show f.1 + f.2.data.length ≤ u64Max
    rw [hnil]
    exact hstart
  · exact hle.trans hsrc.length_le

/-- A buffer that holds the range is put in play, and satisfies it. -/
theorem Faithful.play_holding (h : Faithful source src opts on c) {first : ByteRange}
    (hfirst : first.IsU64) {i : ℕ} {f : Fetched}
    (hi : findHolding o first c.fetched = some (some i)) (hf : c.fetched[i]? = some f) :
    Faithful source src opts on { c with fromFetched := some (i, first.offset - f.1) } ∧
      (Addressable first → (InputRequest.range first).isSatisfiedBy
        (ReadAtCursor.offered { c with fromFetched := some (i, first.offset - f.1) }) = true) := by
  obtain ⟨hstart, hstop⟩ := findHolding_some hi hf
  have hle := hfirst.offset_le_stop
  refine ⟨h.play hf (by omega), fun haddr => ?_⟩
  have hoffered : ReadAtCursor.offered { c with fromFetched := some (i, first.offset - f.1) } =
      ⟨f.1 + (first.offset - f.1), f.2.data.drop (first.offset - f.1), c.window.total⟩ := by
    unfold ReadAtCursor.offered
    dsimp only
    rw [hf]
    rfl
  rw [hoffered, InputRequest.isSatisfiedBy, Bool.and_eq_true, Bool.or_eq_true, beq_iff_eq,
    decide_eq_true_eq, List.length_drop]
  rw [haddr.stop_eq] at hstop
  dsimp only
  exact ⟨by omega, .inl (by omega)⟩

theorem range_filled {batch : List Fetched} {filled : List (List UInt8)}
    (h : filled.map List.length = batch.map fun f => f.2.data.length) :
    ((batch.zip filled).map fun p => (p.1.1, p.1.2.replace p.2)).map Fetched.range =
      batch.map Fetched.range := by
  induction batch generalizing filled with
  | nil => rfl
  | cons f batch ih =>
    cases filled with
    | nil => cases h
    | cons data filled =>
      obtain ⟨hlen, htail⟩ := List.cons.inj h
      have hlen' : data.length = f.2.data.length := hlen
      rw [List.zip_cons_cons, List.map_cons, List.map_cons, List.map_cons, ih htail,
        Fetched.range, Buf.data_replace, hlen', Fetched.range]

/-- Buffers that were filled are laid out as they were, and hold bytes of the source. -/
theorem readBatches_faithful (hsrc : source.Over src) (batches : List (List Fetched)) (w : Ω) :
    Act.Spec (ReadAtCursor.readBatches source batches)
      (fun out _ => (∀ f ∈ out, Shows src f.1 f.2.data) ∧
        out.map Fetched.range = batches.flatten.map Fetched.range)
      (fun _ _ => True) w := by
  induction batches generalizing w with
  | nil => exact ⟨fun f hf => absurd hf List.not_mem_nil, rfl⟩
  | cons batch rest ih =>
    unfold ReadAtCursor.readBatches
    rw [Act.spec_bind]
    refine spec_foreign (fun filled hfilled => ?_) (fun _ _ => trivial)
    obtain ⟨hshows, hrange⟩ : (∀ f ∈ filled, Shows src f.1 f.2.data) ∧
        filled.map Fetched.range = batch.map Fetched.range := by
      have hlen := source.length_readManyAt (batch.map fun f => (f.1, f.2.data)) w
      rw [List.map_map] at hlen
      dsimp only at hfilled
      cases hr : (source.readManyAt (batch.map fun f => (f.1, f.2.data)) w).1.1 with
      | error e =>
        rw [hr] at hfilled
        cases hfilled
      | ok u =>
        rw [hr] at hfilled
        cases hfilled
        have hread := hsrc.readManyAt _ w hr
        rw [List.forall₂_map_left_iff] at hread
        refine ⟨fun f hf => ?_, range_filled hlen⟩
        obtain ⟨p, hp, rfl⟩ := List.mem_map.mp hf
        exact (List.forall₂_zip hread) hp
    rw [Act.spec_bind]
    refine (ih _).mono (fun others _ hothers => ⟨fun f hf => ?_, ?_⟩) (fun _ _ _ => trivial)
    · exact (List.mem_append.mp hf).elim (hshows f) (hothers.1 f)
    · rw [List.map_append, hrange, hothers.2, List.flatten_cons, List.map_append]

/-- What was read for a plan is within the limit. -/
theorem holds_of_plan {coalesced : List ByteRange} {filled : List Fetched} {limits : IoLimits}
    (hbytes : (coalesced.map ByteRange.length).sum ≤ limits.inputBytes)
    (hfilled : (∀ f ∈ filled, Shows src f.1 f.2.data) ∧ filled.map Fetched.range = coalesced) :
    ∀ f ∈ filled, Holds src limits.inputBytes f := by
  intro f hf
  have hrange : f.range ∈ coalesced := hfilled.2 ▸ List.mem_map_of_mem hf
  have hsum := List.single_le_sum (fun _ _ => Nat.zero_le _) _
    (List.mem_map_of_mem (f := ByteRange.length) hrange)
  exact ⟨hfilled.1 f hf, hsum.trans hbytes⟩

theorem fetchRound_faithful (hsrc : source.Over src) (h : Idle source src opts on t.1)
    {first : ByteRange} (hfirst : first.IsU64) {requests : List InputRequest}
    (hrequests : ∀ r ∈ requests, IsU64 r) :
    Act.Spec (ReadAtCursor.fetchRound mem o source first requests : Drive Ω ε SE Unit)
      (fun _ t' => Faithful source src opts on t'.1 ∧ (Addressable first →
        (InputRequest.range first).isSatisfiedBy t'.1.offered = true))
      (fun _ t' => Faithful source src opts on t'.1) t := by
  unfold ReadAtCursor.fetchRound onPlan onMemory update
  simp only [Act.spec_bind, Act.spec_get, Act.spec_focus, Act.spec_mapError, Act.spec_modify]
  refine (spec_plan hfirst fun r hr => hrequests _ hr).mono (fun coalesced w hplan => ?_)
    fun _ _ _ => h.toFaithful
  obtain ⟨-, -, hplan⟩ := hplan
  -- From here on a failure leaves an empty window and no buffers.
  have hnone : Idle source src opts on { t.1 with window := t.1.window.release, fetched := [] } :=
    (h.with_window (Window.over_release src t.1.window)).with_fetched
      fun f hf => absurd hf List.not_mem_nil
  refine (spec_allocateRanges mem coalesced t.1.opts.limits t.1.fetched _).mono
    (fun pending w hpending => ?_) fun _ _ _ => hnone.toFaithful
  refine Host.spec_reserve ?_ hnone.toFaithful
  refine (readBatches_faithful hsrc _ _).mono (fun filled w' hfilled => ?_)
    fun _ _ _ => hnone.toFaithful
  rw [flatten_chunks, List.nil_append, hpending.1] at hfilled
  have hidle : Idle source src opts on
      { t.1 with window := t.1.window.release, fetched := filled } :=
    hnone.with_fetched (h.mode.opts_eq ▸ holds_of_plan hplan.bytes hfilled)
  simp only [Act.spec_getOr]
  refine ⟨fun found hfound => ⟨fun i hi => ⟨fun f hf => ?_, fun _ => hidle.toFaithful⟩,
    fun _ => hidle.toFaithful⟩, fun _ => hidle.toFaithful⟩
  subst hi
  exact hidle.toFaithful.play_holding hfirst hfound hf

/-- A window that holds the range satisfies it, once its start is dropped. -/
theorem satisfies_held {w : Window} (hw : w.InBuf) {first : ByteRange} (hfirst : first.IsU64)
    (haddr : Addressable first) (hheld : w.base ≤ first.offset ∧ first.stop ≤ w.endOffset)
    (h : Idle source src opts on c) (hc : c.window = w.consume (first.offset - w.base)) :
    (InputRequest.range first).isSatisfiedBy c.offered = true := by
  have hle := hfirst.offset_le_stop
  have hend : w.endOffset = w.base + w.len := rfl
  have hstop := haddr.stop_eq
  refine satisfies_range h ?_ ?_
  · rw [hc, Window.base_consume]
    omega
  · rw [hc, Window.len_consume hw]
    omega

/-- Where neither the window nor a buffer held the range, what was moved to its start ends
before it. -/
theorem before_of_retained (hsrc : source.Over src) (h : Faithful source src opts on c)
    {first : ByteRange} (hfirst : first.IsU64)
    (hnot : ¬(c.window.base ≤ first.offset ∧ first.stop ≤ c.window.endOffset))
    (hfound : findHolding o first c.fetched = some none) {stop : ℕ}
    (hretained : (∃ f ∈ c.fetched, f.1 ≤ first.offset ∧ stop = f.1 + f.2.data.length) ∨
      c.window.base ≤ first.offset ∧ stop = c.window.endOffset) : stop ≤ first.stop := by
  rcases hretained with ⟨f, hf, hstart, rfl⟩ | ⟨hstart, rfl⟩
  · exact (findHolding_none hfound hf (addressable_of_shows hsrc (h.fetched f hf).shows
      (hstart.trans hfirst.offset)) hstart).le
  · exact (not_le.mp fun hge => hnot ⟨hstart, hge⟩).le

theorem serveRange_faithful (hsrc : source.Over src) (h : Faithful source src opts on t.1)
    {first : ByteRange} (hfirst : first.IsU64) {requests : List InputRequest}
    (hrequests : ∀ r ∈ requests, IsU64 r) :
    Act.Spec (ReadAtCursor.serveRange mem o source first requests : Drive Ω ε SE Unit)
      (fun _ t' => Faithful source src opts on t'.1 ∧ (Addressable first →
        first.length ≤ mem.usizeMax →
        (InputRequest.range first).isSatisfiedBy t'.1.offered = true))
      (fun _ t' => Faithful source src opts on t'.1) t := by
  unfold ReadAtCursor.serveRange update
  simp only [Act.spec_bind, Act.spec_get, Act.spec_ite, Act.spec_getOr, Act.spec_modify]
  refine ⟨fun hheld => ?_, fun hnot => ⟨fun found hfound => ?_, fun _ => h⟩⟩
  · -- The window holds the range.
    have hidle : Idle source src opts on { t.1 with
        fromFetched := none
        window := t.1.window.consume (first.offset - t.1.window.base) } :=
      h.idle.with_window (h.window.consume _)
    exact ⟨hidle.toFaithful, fun haddr _ =>
      satisfies_held h.window.inBuf hfirst haddr hheld hidle rfl⟩
  · cases found with
    | some i =>
      simp only [Act.spec_bind, Act.spec_getOr, Act.spec_modify]
      refine ⟨fun f hf => ?_, fun _ => h⟩
      obtain ⟨hplay, hsat⟩ := h.play_holding hfirst hfound hf
      exact ⟨hplay, fun haddr _ => hsat haddr⟩
    | none =>
      simp only [Act.spec_bind, Act.spec_modify]
      refine (position_faithful h.idle first.offset).mono (fun retained t' ht' => ?_)
        fun _ _ h => h.elim
      obtain ⟨hidle, -, hbase, hretained⟩ := ht'
      rw [Act.spec_ite]
      refine ⟨fun hyes => ?_, fun _ => ?_⟩
      · -- Its start is in the window, which ends before the range does.
        have hbefore := before_of_retained hsrc h hfirst hnot hfound (hretained hyes)
        refine (readTail_faithful hsrc hidle first).mono (fun _ u hu => ?_)
          fun _ _ hu => hu.toFaithful
        obtain ⟨hu, hubase, hlen⟩ := hu
        refine ⟨hu.toFaithful, fun haddr husize => ?_⟩
        exact satisfies_range hu (hubase.trans hbase) (hlen haddr hbase hbefore husize).ge
      · refine (fetchRound_faithful hsrc hidle hfirst hrequests).mono (fun _ u hu => ?_)
          fun _ _ hu => hu
        exact ⟨hu.1, fun haddr _ => hu.2 haddr⟩

theorem serveLen_faithful (h : Faithful source src opts on t.1) :
    Act.Spec (ReadAtCursor.serveLen source : Drive Ω ε SE Unit)
      (fun _ t' => Idle source src opts on t'.1 ∧
        InputRequest.len.isSatisfiedBy t'.1.offered = true)
      (fun _ t' => Idle source src opts on t'.1) t := by
  unfold ReadAtCursor.serveLen orInput update
  simp only [Act.spec_bind, Act.spec_get, Act.spec_ite, Act.spec_modify, Act.spec_lift,
    Act.spec_pure]
  refine ⟨fun _ => ⟨fun _ _ => ?_, fun _ _ => h.idle⟩, fun hknown => ?_⟩
  · refine Act.spec_of_run (fun total htotal => ?_) fun _ _ => h.idle
    exact ⟨h.idle.with_total _, rfl⟩
  · refine ⟨h.idle, ?_⟩
    show t.1.window.total.isSome = true
    exact Option.isSome_iff_ne_none.mpr fun hnone => hknown (by rw [hnone]; rfl)

/-- How many bytes an affordable request needs at once. -/
theorem span_le_of_affords {limits : IoLimits} {request : InputRequest} {span : ByteRange}
    (h : limits.affords request = .ok ()) (hspan : requestSpan request = some span) :
    span.length ≤ limits.inputBytes := by
  have hbytes : ∀ {n : ℕ} {f : ℕ → Except InputError Unit},
      (limits.bytes n >>= f) = .ok () → n ≤ limits.inputBytes := by
    intro n f hn
    cases hb : limits.bytes n with
    | ok m => exact (IoLimits.bytes_ok hb).1
    | error e =>
      rw [hb] at hn
      cases hn
  cases request with
  | atLeast offset minLen =>
    obtain rfl := Option.some_inj.mp hspan
    cases hb : limits.bytes (max minLen 1) with
    | ok m => exact (IoLimits.bytes_ok hb).1
    | error e =>
      rw [IoLimits.affords, hb] at h
      cases h
  | range r =>
    obtain rfl := Option.some_inj.mp hspan
    exact hbytes h
  | len => cases hspan

/-- What was selected is satisfied when it was served. -/
theorem serve_faithful (hsrc : source.Over src) (h : Faithful source src opts on t.1)
    {requests : List InputRequest} (hrequests : ∀ r ∈ requests, IsU64 r) :
    Act.Spec (ReadAtCursor.serve mem o source requests : Drive Ω ε SE Unit)
      (fun _ t' => Faithful source src opts on t'.1 ∧
        ∃ request, select requests opts.limits = .ok request ∧ (overflows request = false →
          opts.limits.inputBytes ≤ mem.usizeMax → request.isSatisfiedBy t'.1.offered = true))
      (fun _ t' => Faithful source src opts on t'.1) t := by
  unfold ReadAtCursor.serve orInput
  simp only [Act.spec_bind, Act.spec_get, Act.spec_lift]
  refine ⟨fun request hselect => ?_, fun _ _ => h⟩
  have hok : select requests opts.limits = .ok request :=
    h.mode.opts_eq ▸ mapError_eq_ok.mp hselect
  obtain ⟨hmem, hafford⟩ := select_ok hok
  cases request with
  | atLeast offset minLen =>
    refine (serveAtLeast_faithful hsrc h offset minLen).mono
      (fun _ u hu => ⟨hu.1, _, hok, fun hover husize => ?_⟩) fun _ _ hu => hu
    have haddr : ¬u64Max < offset + max minLen 1 := of_decide_eq_false hover
    have hbytes : max minLen 1 ≤ opts.limits.inputBytes := span_le_of_affords hafford rfl
    rw [h.mode.opts_eq] at hu
    exact hu.2 (by omega) (by omega) (by omega)
  | range first =>
    refine (serveRange_faithful hsrc h (hrequests _ hmem) hrequests).mono
      (fun _ u hu => ⟨hu.1, _, hok, fun hover husize => ?_⟩) fun _ _ hu => hu
    have haddr : ¬u64Max < first.offset + first.length := of_decide_eq_false hover
    exact hu.2 (not_lt.mp haddr) ((span_le_of_affords hafford rfl).trans husize)
  | len =>
    exact (serveLen_faithful h).mono (fun _ u hu => ⟨hu.1.toFaithful, _, hok, fun _ _ => hu.2⟩)
      fun _ _ hu => hu.toFaithful

/-- The numbers that a call passes are `u64`s. -/
def CallIsU64 : ReadAtCursor.Call → Prop
  | .offer => True
  | .take _ => True
  | .serve requests => ∀ r ∈ requests, IsU64 r

theorem call_offer (hsrc : source.Over src) (h : Faithful source src opts on t.1) :
    Faithful source src opts true (callStep ε mem o source t .offer).2.1 := by
  have hoffer : Act.Spec (ReadAtCursor.call mem o source .offer : Drive Ω ε SE Unit)
      (fun _ t' => Faithful source src opts true t'.1)
      (fun _ t' => Faithful source src opts true t'.1) t := by
    rw [ReadAtCursor.call, Act.spec_bind]
    exact (offer_faithful hsrc h).mono (fun _ _ ht' => ht'.2) fun _ _ h => h.elim
  exact hoffer.state

/-- Every call keeps what is held a part of the source. -/
theorem call_faithful (hsrc : source.Over src) (h : Faithful source src opts on t.1)
    {call : ReadAtCursor.Call} (hcall : CallIsU64 call) :
    ∃ on', (on = true → on' = true) ∧
      Faithful source src opts on' (callStep ε mem o source t call).2.1 := by
  cases call with
  | offer => exact ⟨true, fun _ => rfl, call_offer hsrc h⟩
  | take consumed => exact ⟨on, id, take_faithful h consumed⟩
  | serve requests =>
    have hserve : Act.Spec (ReadAtCursor.call mem o source (.serve requests) : Drive Ω ε SE Unit)
        (fun _ t' => Faithful source src opts on t'.1)
        (fun _ t' => Faithful source src opts on t'.1) t :=
      (serve_faithful hsrc h hcall).mono (fun _ _ hu => hu.1) fun _ _ hu => hu
    exact ⟨on, id, hserve.state⟩

end Calls

/-! ### Runs -/

theorem faithful_new (source : ReadAt Ω SE) (src : List UInt8) (opts : DriveOptions) :
    Faithful source src opts false (.new opts) where
  window := ⟨Window.inBuf_new, Shows.nil _ _⟩
  fetched := fun _ hf => absurd hf List.not_mem_nil
  inPlay := fun _ _ hp => (by cases hp)
  mode := ⟨rfl, rfl, fun hs => (by cases hs), fun hon => (by cases hon)⟩

/-- From the first offer on, the cursor drives the source as what it is. -/
theorem faithful_started {mem : Memory Ω} {o : Overflow} {source : ReadAt Ω SE} {src : List UInt8}
    (hsrc : source.Over src) (opts : DriveOptions) (w : Ω) {calls : List ReadAtCursor.Call}
    (hcalls : ∀ call ∈ calls, CallIsU64 call) :
    Faithful source src opts true
      (Runs.final (callStep ε mem o source) (.new opts, w) (.offer :: calls)).1 := by
  have hstep : Runs.Preserved (callStep ε mem o source) CallIsU64
      (fun t => Faithful source src opts true t.1) := by
    intro t call hcall h
    obtain ⟨on', hon, h'⟩ := call_faithful hsrc h hcall
    exact hon rfl ▸ h'
  rw [Runs.final_cons]
  exact Runs.final_of_preserved hstep hcalls (call_offer hsrc (faithful_new source src opts))

/-- **What is offered is the source's.** After any calls, whether they succeeded or failed,
however little the source read at a time and whatever the allocator gave, the next input is
offered, and its bytes are those of the source at its offset. -/
theorem offered_of_run (mem : Memory Ω) (o : Overflow) {source : ReadAt Ω SE} {src : List UInt8}
    (hsrc : source.Over src) (opts : DriveOptions) (w : Ω) {calls : List ReadAtCursor.Call}
    (hcalls : ∀ call ∈ calls, CallIsU64 call) :
    ∃ input, ((ReadAtCursor.offer source : Drive Ω ε SE Input)
        (Runs.final (callStep ε mem o source) (.new opts, w) calls)).1 = .ok input ∧
      Shows src input.offset input.bytes := by
  have hstep : Runs.Preserved (callStep ε mem o source) CallIsU64
      (fun t => ∃ on, Faithful source src opts on t.1) := by
    rintro t call hcall ⟨on, h⟩
    obtain ⟨on', -, h'⟩ := call_faithful hsrc h hcall
    exact ⟨on', h'⟩
  obtain ⟨on, hfinal⟩ := Runs.final_of_preserved hstep hcalls
    (s := (.new opts, w)) ⟨false, faithful_new source src opts⟩
  obtain ⟨input, hinput, hshows, -⟩ := exists_ok (offer_faithful hsrc hfinal)
  exact ⟨input, hinput, hshows⟩

/-- **What was served satisfies the request.** Of a source that is not in memory: when a call to
serve succeeds, after any others, the next input satisfies the request that was selected, and its
bytes are those of the source. -/
theorem served_of_run (mem : Memory Ω) (o : Overflow) {source : ReadAt Ω SE} {src : List UInt8}
    (hsrc : source.Over src) (hnone : ∀ w, source.asSlice w = none) (opts : DriveOptions)
    (hlimit : opts.limits.inputBytes ≤ mem.usizeMax) (w : Ω) {calls : List ReadAtCursor.Call}
    (hcalls : ∀ call ∈ calls, CallIsU64 call) {requests : List InputRequest}
    (hrequests : ∀ r ∈ requests, IsU64 r) {request : InputRequest}
    (hselect : select requests opts.limits = .ok request) (hover : overflows request = false)
    (hok : ((ReadAtCursor.serve mem o source requests : Drive Ω ε SE Unit)
      (Runs.final (callStep ε mem o source) (.new opts, w) (.offer :: calls))).1 = .ok ()) :
    ∃ input, ((ReadAtCursor.offer source : Drive Ω ε SE Input)
        ((ReadAtCursor.serve mem o source requests : Drive Ω ε SE Unit)
          (Runs.final (callStep ε mem o source) (.new opts, w) (.offer :: calls))).2).1 =
        .ok input ∧
      request.isSatisfiedBy input = true ∧ Shows src input.offset input.bytes := by
  have hfinal : Faithful source src opts true
      (Runs.final (callStep ε mem o source) (.new opts, w) (.offer :: calls)).1 :=
    faithful_started hsrc opts w hcalls
  obtain ⟨hserved, request', hselect', hsat⟩ :=
    (serve_faithful (ε := ε) hsrc hfinal hrequests).run.1 () hok
  obtain rfl := Except.ok.inj (hselect.symm.trans hselect')
  obtain ⟨input, hinput, hshown, -⟩ := exists_ok (offer_shown (ε := ε) hsrc hserved hnone)
  obtain rfl := hshown.trans (if_pos hserved.mode.started_eq)
  exact ⟨_, hinput, hsat hover hlimit, hserved.shows_offered⟩

theorem shows_overwrite {src out : List UInt8} {offset : ℕ} (h : offset + out.length ≤ src.length) :
    Shows src offset (overwrite src offset out) := by
  have hrest : out.drop (src.length - offset) = [] := List.drop_eq_nil_of_le (by omega)
  rw [overwrite, hrest, List.append_nil]
  exact List.take_prefix _ _

theorem shows_take_overwrite (src : List UInt8) (offset : ℕ) (out : List UInt8) :
    Shows src offset
      ((overwrite src offset out).take (min out.length (src.length - offset))) := by
  have hle : min out.length (src.length - offset) ≤
      ((src.drop offset).take out.length).length := by
    rw [List.length_take, List.length_drop]
  rw [overwrite, List.take_append_of_le_length hle, List.take_take]
  exact List.take_prefix _ _

/-- A stream reads the bytes that it is over. -/
theorem over_streamSource {src : List UInt8} (h : src.length ≤ u64Max) :
    (streamSource src).Over src where
  length_le := h
  asSlice := .inl fun _ => rfl
  readAt := by
    intro offset out w n hn
    obtain rfl := Except.ok.inj hn
    exact shows_take_overwrite src offset out
  readExactAt := by
    intro offset out w hok
    simp only [streamSource] at hok
    split at hok
    · next hle => exact shows_overwrite hle
    · cases hok
  readManyAt := by
    intro reqs w hok
    simp only [streamSource] at hok
    split at hok
    · next hall =>
      show List.Forall₂ _ reqs (reqs.map fun r => overwrite src r.1 r.2)
      rw [List.forall₂_map_right_iff, List.forall₂_same]
      exact fun r hr => shows_overwrite (of_decide_eq_true (List.all_eq_true.mp hall r hr))
    · cases hok

theorem smallRequests_isU64 : ∀ r ∈ [InputRequest.range ⟨6, 2⟩, .range ⟨9, 3⟩], IsU64 r := by
  simp only [List.forall_mem_cons]
  exact ⟨⟨by decide, by decide⟩, ⟨by decide, by decide⟩, fun _ h => absurd h List.not_mem_nil⟩

theorem smallCalls_isU64 :
    ∀ call ∈ [ReadAtCursor.Call.serve [.atLeast 0 2], .take 2], CallIsU64 call := by
  simp only [List.forall_mem_cons, CallIsU64]
  exact ⟨⟨⟨by decide, by decide⟩, fun _ h => absurd h List.not_mem_nil⟩, trivial,
    fun _ h => absurd h List.not_mem_nil⟩

theorem offered_of_run_smallRun :
    ∃ input, ((ReadAtCursor.offer (streamSource [1, 2, 3, 4, 5, 6, 7, 8, 9, 10, 11, 12]) :
        Drive Unit Unit Unit Input) smallRun).1 = .ok input ∧
      Shows [1, 2, 3, 4, 5, 6, 7, 8, 9, 10, 11, 12] input.offset input.bytes := by
  refine offered_of_run plainMemory .panics (over_streamSource (by decide)) smallOptions () ?_
  simp only [List.forall_mem_cons]
  exact ⟨trivial, (List.forall_mem_cons.mp smallCalls_isU64).1, trivial, smallRequests_isU64,
    fun _ h => absurd h List.not_mem_nil⟩

/-- What is served in `smallRun` at the end. -/
theorem served_of_run_smallRun :
    ∃ input, ((ReadAtCursor.offer (streamSource [1, 2, 3, 4, 5, 6, 7, 8, 9, 10, 11, 12]) :
        Drive Unit Unit Unit Input) smallRun).1 = .ok input ∧
      (InputRequest.range ⟨6, 2⟩).isSatisfiedBy input = true ∧
      Shows [1, 2, 3, 4, 5, 6, 7, 8, 9, 10, 11, 12] input.offset input.bytes :=
  served_of_run plainMemory .panics (over_streamSource (by decide)) (fun _ => rfl)
    smallOptions (by decide) () smallCalls_isU64 smallRequests_isU64 rfl (by decide) (by decide)

end Zencodec.Io
