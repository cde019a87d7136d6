/-
Admission of requests, shared by the input drivers.

`select` takes the first request that the limits afford. `plan` collects the ranges to fetch
with one that was selected, as many as the limits afford, and merges those that are close.

`spec_plan` says what a plan is: its ranges are in order and disjoint, cover every range that
was admitted and nothing else but short gaps, and stay within the limits.
-/
import Zencodec.Io.Ranges
import Zencodec.Machine

open Tiling StableSort

namespace Zencodec.Io

open Incremental (ByteRange InputRequest u64Max saturatingAdd)

variable {Ω : Type}

/-! ### Limits -/

/-- Limits on storage and requests owned by one input driver. The limit of bytes is a `usize`,
which is no wider than a `u64`. -/
structure IoLimits where
  inputBytes : ℕ
  ranges : ℕ
  inFlight : ℕ
  inputBytes_le : inputBytes ≤ u64Max

/-- Driver admission or allocation failure, separate from codec and source errors. -/
inductive InputError where
  | limit (needed limit : ℕ)
  | rangesDisabled
  | readsDisabled
  | allocation (bytes : ℕ)
  deriving DecidableEq, Repr

/-- How a call ends that does not return: with an error, or with a panic. -/
inductive Halt (ε : Type) where
  | error (e : ε)
  | panic
  deriving DecidableEq, Repr

theorem Halt.error_ne_panic {ε : Type} (e : ε) : Halt.error e ≠ .panic := by
  intro h
  cases h

/-- The length as a `usize`: what is within the limit is one. -/
def IoLimits.bytes (limits : IoLimits) (needed : ℕ) : Except InputError ℕ :=
  if limits.inputBytes < needed then .error (.limit needed limits.inputBytes) else .ok needed

def IoLimits.reading (limits : IoLimits) : Except InputError Unit :=
  if limits.inFlight = 0 then .error .readsDisabled else .ok ()

/-- Whether the limits afford a request. -/
def IoLimits.affords (limits : IoLimits) : InputRequest → Except InputError Unit
  | .atLeast _ minLen => (limits.bytes (max minLen 1)).map fun _ => ()
  | .range r => do
    let _ ← limits.bytes r.length
    if limits.ranges = 0 then .error .rangesDisabled else .ok ()
  | .len => .ok ()

def selectLoop (limits : IoLimits) (firstError : Option InputError) :
    List InputRequest → Except InputError InputRequest
  | [] => .error (firstError.getD .rangesDisabled)
  | request :: rest =>
    match limits.affords request with
    | .ok () => .ok request
    | .error e => selectLoop limits (some (firstError.getD e)) rest

/-- The affordable alternative that comes first. -/
def select (requests : List InputRequest) (limits : IoLimits) : Except InputError InputRequest :=
  selectLoop limits none requests

theorem selectLoop_ok {limits : IoLimits} {firstError : Option InputError}
    {requests : List InputRequest} {request : InputRequest}
    (h : selectLoop limits firstError requests = .ok request) :
    request ∈ requests ∧ limits.affords request = .ok () := by
  induction requests generalizing firstError with
  | nil => cases h
  | cons head rest ih =>
    unfold selectLoop at h
    split at h
    · next hhead =>
      obtain rfl := Except.ok.inj h
      exact ⟨List.mem_cons_self, hhead⟩
    · obtain ⟨hmem, hok⟩ := ih h
      exact ⟨List.mem_cons_of_mem _ hmem, hok⟩

theorem select_ok {limits : IoLimits} {requests : List InputRequest} {request : InputRequest}
    (h : select requests limits = .ok request) :
    request ∈ requests ∧ limits.affords request = .ok () :=
  selectLoop_ok h

theorem IoLimits.bytes_ok {limits : IoLimits} {needed n : ℕ} (h : limits.bytes needed = .ok n) :
    needed ≤ limits.inputBytes ∧ n = needed := by
  unfold IoLimits.bytes at h
  split at h
  · cases h
  · next hle => exact ⟨not_lt.mp hle, (Except.ok.inj h).symm⟩

/-! ### Planning a fetch -/

/-- The ranges that a plan admits beside the first, and the sum of their lengths. -/
def admitLoop (limits : IoLimits) (first : ByteRange) :
    List InputRequest → List ByteRange × ℕ → List ByteRange × ℕ
  | [], s => s
  | .range r :: rest, s =>
    if r.isEmpty || r == first || s.1.length == limits.ranges then admitLoop limits first rest s
    -- Conservative: what overlaps is counted twice.
    else if s.2 + r.length ≤ u64Max ∧ s.2 + r.length ≤ limits.inputBytes then
      admitLoop limits first rest (s.1 ++ [r], s.2 + r.length)
    else admitLoop limits first rest s
  | .atLeast _ _ :: rest, s => admitLoop limits first rest s
  | .len :: rest, s => admitLoop limits first rest s

def admitted (limits : IoLimits) (first : ByteRange) (requests : List InputRequest) :
    List ByteRange × ℕ :=
  admitLoop limits first requests ([first], first.length)

/-- `out[write]` and what is left of `out[i..]`, with the bytes that all of `out` takes. -/
def planLoop (o : Overflow) (gap : ℕ) (limits : IoLimits) :
    ℕ → ByteRange → List ByteRange → Option (List ByteRange)
  | _, cur, [] => some [cur]
  | bytes, cur, r :: rest =>
    let extra := r.offset - cur.stop
    if r.offset ≤ saturatingAdd cur.stop gap ∧ extra ≤ limits.inputBytes - bytes then do
      let merged ← o.sub (u64Max + 1) (max cur.stop r.stop) cur.offset
      let without ← o.sub (u64Max + 1) bytes cur.length
      let without ← o.sub (u64Max + 1) without r.length
      let bytes ← o.nat 64 (without + merged)
      planLoop o gap limits bytes ⟨cur.offset, merged⟩ rest
    else do
      let out ← planLoop o gap limits bytes r rest
      some (cur :: out)

/-- The size of a range in memory. -/
def rangeSize : ℕ := 16

/-- A bounded prefetch plan for alternatives, which always includes `first`. -/
def plan (host : Host Ω) (o : Overflow) (first : ByteRange) (requests : List InputRequest)
    (gap : ℕ) (limits : IoLimits) : Act Ω (Halt InputError) (List ByteRange) := do
  Act.lift (limits.reading.mapError .error)
  let _ ← Act.lift ((limits.bytes first.length).mapError .error)
  Act.require (limits.ranges != 0) (.error .rangesDisabled)
  let count := min requests.length limits.ranges
  host.reserve (.error (.allocation (min (count * rangeSize) host.usizeMax)))
  let (out, bytes) := admitted limits first requests
  match sortBy ByteRange.key out with
  | [] => pure []
  | cur :: rest => Act.getOr (planLoop o gap limits bytes cur rest) .panic

/-! ### What is admitted -/

/-- The ranges to fetch, and what they take. -/
structure Affordable (limits : IoLimits) (first : ByteRange) (requests : List InputRequest)
    (s : List ByteRange × ℕ) : Prop where
  sum : (s.1.map ByteRange.length).sum = s.2
  bytes : s.2 ≤ limits.inputBytes
  count : s.1.length ≤ limits.ranges
  first_mem : first ∈ s.1
  mem : ∀ r ∈ s.1, r = first ∨ InputRequest.range r ∈ requests

theorem affordable_admitLoop {limits : IoLimits} {first : ByteRange}
    {requests rest : List InputRequest} (hrest : ∀ r ∈ rest, r ∈ requests)
    {s : List ByteRange × ℕ} (h : Affordable limits first requests s) :
    Affordable limits first requests (admitLoop limits first rest s) := by
  induction rest generalizing s with
  | nil => exact h
  | cons request rest ih =>
    have htail : ∀ r ∈ rest, r ∈ requests := fun r hr => hrest r (List.mem_cons_of_mem _ hr)
    cases request with
    | atLeast offset minLen => exact ih htail h
    | len => exact ih htail h
    | range r =>
      unfold admitLoop
      split
      · exact ih htail h
      · next hskip =>
        split
        · next hfits =>
          refine ih htail ⟨?_, hfits.2, ?_, List.mem_append_left _ h.first_mem, ?_⟩
          · rw [List.map_append, List.sum_append, h.sum]
            simp
          · simp only [Bool.or_eq_true, not_or, beq_iff_eq] at hskip
            rw [List.length_append, List.length_singleton]
            have := h.count
            omega
          · intro t ht
            rcases List.mem_append.mp ht with ht | ht
            · exact h.mem t ht
            · exact .inr (List.mem_singleton.mp ht ▸ hrest _ List.mem_cons_self)
        · exact ih htail h

theorem affordable_admitted {limits : IoLimits} {first : ByteRange}
    (hbytes : first.length ≤ limits.inputBytes) (hranges : limits.ranges ≠ 0)
    (requests : List InputRequest) :
    Affordable limits first requests (admitted limits first requests) := by
  refine affordable_admitLoop (fun _ hr => hr) ⟨?_, hbytes, Nat.pos_of_ne_zero hranges,
    List.mem_singleton_self first, fun r hr => .inl (List.mem_singleton.mp hr)⟩
  rw [List.map_singleton, List.sum_singleton]

/-! ### The plan is a sweep -/

def joinWithin (gap limit : ℕ) (bytes : ℕ) (a b : ByteRange) : Option (ℕ × ByteRange) :=
  if b.offset ≤ saturatingAdd a.stop gap ∧ b.offset - a.stop ≤ limit - bytes then
    some (bytes - a.length - b.length + (joined a b).length, joined a b)
  else none

theorem joinWithin_some {gap limit bytes : ℕ} {a b : ByteRange} {p : ℕ × ByteRange}
    (h : joinWithin gap limit bytes a b = some p) :
    b.offset ≤ saturatingAdd a.stop gap ∧ b.offset - a.stop ≤ limit - bytes ∧
      p = (bytes - a.length - b.length + (joined a b).length, joined a b) := by
  unfold joinWithin at h
  split at h
  · next hle => exact ⟨hle.1, hle.2, (Option.some_inj.mp h).symm⟩
  · cases h

theorem joins_joinWithin (gap limit : ℕ) : Coalesce.Joins ByteRange.span (joinWithin gap limit)
    (Near gap) (fun x y => y ≤ u64Max → x < y) where
  hull := by
    intro bytes a b p hproper hp
    obtain ⟨-, -, rfl⟩ := joinWithin_some hp
    exact span_joined hproper
  near := by
    intro bytes a b p hp
    exact (joinWithin_some hp).1.trans (min_le_left _ _)
  apart := by
    intro bytes a b hp hle
    unfold joinWithin at hp
    split at hp
    · cases hp
    · next h =>
      -- Where the two overlap nothing is extra.
      refine lt_of_not_ge fun hge => h ⟨?_, ?_⟩
      · exact le_min (hge.trans (Nat.le_add_right _ _)) hle
      · exact (Nat.sub_eq_zero_of_le hge).le.trans (Nat.zero_le _)

/-- Joining two ranges takes at most what lies between them. -/
theorem length_joined_le (a b : ByteRange) :
    (joined a b).length ≤ a.length + b.length + (b.offset - a.stop) := by
  have ha := a.stop_le_add
  have hb := b.stop_le_add
  have hmax : max a.stop b.stop ≤ a.offset + a.length + b.length + (b.offset - a.stop) :=
    max_le (by omega) (by omega)
  show max a.stop b.stop - a.offset ≤ _
  omega

theorem joinWithin_bytes {gap limit bytes : ℕ} {a b : ByteRange} {p : ℕ × ByteRange}
    (hsum : a.length + b.length ≤ bytes) (hlimit : bytes ≤ limit)
    (h : joinWithin gap limit bytes a b = some p) :
    p.1 + a.length + b.length = bytes + p.2.length ∧ p.1 ≤ limit := by
  obtain ⟨-, hextra, rfl⟩ := joinWithin_some h
  have hlen := length_joined_le a b
  exact ⟨by dsimp only; omega, by dsimp only; omega⟩

theorem planLoop_eq (o : Overflow) {gap : ℕ} {limits : IoLimits} {bytes d : ℕ} {cur : ByteRange}
    {l : List ByteRange} (hl : ∀ r ∈ cur :: l, r.IsU64)
    (hsum : bytes = d + ((cur :: l).map ByteRange.length).sum)
    (hbytes : bytes ≤ limits.inputBytes) :
    planLoop o gap limits bytes cur l =
      some (Coalesce.sweep (joinWithin gap limits.inputBytes) bytes cur l) := by
  induction l generalizing bytes d cur with
  | nil => rfl
  | cons r rest ih =>
    have hcur : cur.IsU64 := hl cur List.mem_cons_self
    have hrest : ∀ t ∈ rest, t.IsU64 := fun t ht =>
      hl t (List.mem_cons_of_mem _ (List.mem_cons_of_mem _ ht))
    simp only [List.map_cons, List.sum_cons] at hsum
    by_cases hnear : r.offset ≤ saturatingAdd cur.stop gap ∧
        r.offset - cur.stop ≤ limits.inputBytes - bytes
    · have hle : cur.offset ≤ max cur.stop r.stop := hcur.offset_le_stop.trans (le_max_left _ _)
      have hjoin : joinWithin gap limits.inputBytes bytes cur r =
          some (bytes - cur.length - r.length + (joined cur r).length, joined cur r) :=
        if_pos hnear
      have hbounds := joinWithin_bytes (by omega) hbytes hjoin
      have hlimit := limits.inputBytes_le
      have hfits : bytes - cur.length - r.length + (joined cur r).length < 2 ^ 64 :=
        (hbounds.2.trans hlimit).trans_lt (Nat.sub_lt (Nat.two_pow_pos 64) Nat.one_pos)
      rw [planLoop, if_pos hnear, o.sub_of_le hle, Coalesce.sweep_cons_some hjoin,
        o.sub_of_le (show cur.length ≤ bytes by omega)]
      simp only [Option.bind_eq_bind, Option.bind_some]
      rw [o.sub_of_le (show r.length ≤ bytes - cur.length by omega), Option.bind_some]
      have hnat := o.nat_of_lt hfits
      simp only [joined] at hnat ⊢
      rw [hnat, Option.bind_some]
      refine ih (d := d) (fun t ht => ?_) ?_ hbounds.2
      · exact (List.mem_cons.mp ht).elim (fun h => h ▸ joined_isU64 hcur) (hrest t)
      · simp only [List.map_cons, List.sum_cons]
        omega
    · have hjoin : joinWithin gap limits.inputBytes bytes cur r = none := if_neg hnear
      rw [planLoop, if_neg hnear, Coalesce.sweep_cons_none hjoin,
        ih (d := d + cur.length) (fun t ht => hl t (List.mem_cons_of_mem _ ht)) ?_ hbytes]
      · rfl
      · simp only [List.map_cons, List.sum_cons]
        omega

/-! ### What a plan is -/

/-- No end of a range is beyond the last address. -/
def Addressable (r : ByteRange) : Prop := r.offset + r.length ≤ u64Max

/-- `out` is a plan for the ranges `l`. -/
structure Planned (gap : ℕ) (limits : IoLimits) (l out : List ByteRange) : Prop where
  sorted : out.Pairwise fun a b => a.offset < b.offset
  disjoint : out.Pairwise fun a b => a.stop < b.offset
  covers : ∀ r ∈ l, ∃ c ∈ out, c.offset ≤ r.offset ∧ r.stop ≤ c.stop
  adds : ∀ c ∈ out, ∀ x, c.Contains x →
    (∃ r ∈ l, r.Contains x) ∨ Coalesce.InGap ByteRange.span (Near gap) l x
  bytes : (out.map ByteRange.length).sum ≤ limits.inputBytes
  count : out.length ≤ limits.ranges
  addressable : (∀ r ∈ l, Addressable r) → ∀ c ∈ out, Addressable c

theorem Addressable.stop_eq {r : ByteRange} (h : Addressable r) : r.stop = r.offset + r.length :=
  min_eq_left h

theorem addressable_joined {a b : ByteRange} (h : a.IsU64) : Addressable (joined a b) := by
  have hle : a.offset ≤ max a.stop b.stop := h.offset_le_stop.trans (le_max_left _ _)
  have hmax : max a.stop b.stop ≤ u64Max := max_le a.stop_le_u64Max b.stop_le_u64Max
  show a.offset + (max a.stop b.stop - a.offset) ≤ u64Max
  omega

theorem planned_sweep {gap : ℕ} {limits : IoLimits} {first cur : ByteRange}
    {requests : List InputRequest} {s : List ByteRange × ℕ} {rest : List ByteRange}
    (h : Affordable limits first requests s) (hu64 : ∀ r ∈ s.1, r.IsU64)
    (hs : sortBy ByteRange.key s.1 = cur :: rest) :
    Planned gap limits s.1
      (Coalesce.sweep (joinWithin gap limits.inputBytes) s.2 cur rest) := by
  have hperm : (cur :: rest).Perm s.1 := hs ▸ sortBy_perm _ _
  have hl : ∀ r ∈ cur :: rest, r.IsU64 := fun r hr => hu64 r (hperm.mem_iff.mp hr)
  have horder : Coalesce.InOrder ByteRange.span (cur :: rest) :=
    inOrder_of_key hl (hs ▸ sortBy_sorted _ _)
  have hjoins := joins_joinWithin gap limits.inputBytes
  have hmem64 : ∀ r ∈ Coalesce.sweep (joinWithin gap limits.inputBytes) s.2 cur rest,
      r.IsU64 := by
    refine Coalesce.forall_mem_sweep (fun _ a b p ha _ hp => ?_) hl
    obtain ⟨-, -, rfl⟩ := joinWithin_some hp
    exact joined_isU64 ha
  have hdisjoint := (Coalesce.pairwise_apart (s := s.2) hjoins
    (fun x y z hxy hyz hz => (hxy (hyz.trans hz)).trans_le hyz) horder).imp_of_mem
      fun {a b} _ hb hab => hab (hmem64 b hb).offset
  refine ⟨?_, hdisjoint, fun r hr => ?_, fun c hc x hx => ?_, ?_, ?_, fun haddr c hc => ?_⟩
  · exact hdisjoint.imp_of_mem fun {a b} ha _ hab => (hmem64 a ha).offset_le_stop.trans_lt hab
  · exact Coalesce.exists_within hjoins horder (hperm.mem_iff.mpr hr)
  · have hmem := Coalesce.mem_or_gap hjoins horder hc hx
    simp only [Coalesce.InGap, hperm.mem_iff] at hmem
    exact hmem
  · have hsum : s.2 = 0 + ((cur :: rest).map ByteRange.length).sum := by
      rw [Nat.zero_add, (hperm.map _).sum_eq, h.sum]
    have hjoin : ∀ bytes a b p, a.length + b.length ≤ bytes → bytes ≤ limits.inputBytes →
        joinWithin gap limits.inputBytes bytes a b = some p →
        p.1 + a.length + b.length = bytes + p.2.length ∧ p.1 ≤ limits.inputBytes :=
      fun _ _ _ _ => joinWithin_bytes
    have hle := Coalesce.sum_weight_le hjoin hsum h.bytes
    rwa [Nat.zero_add] at hle
  · refine (Coalesce.length_sweep_le _ _ _ _).trans ?_
    rw [← List.length_cons (a := cur), hperm.length_eq]
    exact h.count
  · refine (Coalesce.forall_mem_sweep (P := fun r => r.IsU64 ∧ Addressable r)
      (fun _ a b p ha _ hp => ?_) (fun r hr => ⟨hl r hr, haddr r (hperm.mem_iff.mp hr)⟩) c hc).2
    obtain ⟨-, -, rfl⟩ := joinWithin_some hp
    exact ⟨joined_isU64 ha.1, addressable_joined ha.1⟩

/-- A plan covers what was admitted, within the limits, and never overflows. -/
theorem spec_plan {host : Host Ω} {o : Overflow} {first : ByteRange}
    {requests : List InputRequest} {gap : ℕ} {limits : IoLimits} {w : Ω} (hfirst : first.IsU64)
    (hrequests : ∀ r, InputRequest.range r ∈ requests → r.IsU64) :
    Act.Spec (plan host o first requests gap limits)
      (fun out _ => first.length ≤ limits.inputBytes ∧ limits.ranges ≠ 0 ∧
        Planned gap limits (admitted limits first requests).1 out)
      (fun e _ => e ≠ .panic) w := by
  unfold plan
  simp only [Act.spec_bind, Act.spec_lift, Act.spec_require]
  refine ⟨fun _ _ => ⟨fun n hn => ⟨fun hranges => ?_, fun _ =>
    Halt.error_ne_panic _⟩, ?_⟩, ?_⟩
  · have hbytes : first.length ≤ limits.inputBytes := by
      cases h : limits.bytes first.length with
      | ok n => exact (IoLimits.bytes_ok h).1
      | error e => rw [h] at hn; cases hn
    have hne : limits.ranges ≠ 0 := by simpa using hranges
    have haffordable := affordable_admitted hbytes hne requests
    have hu64 : ∀ r ∈ (admitted limits first requests).1, r.IsU64 := fun r hr =>
      (haffordable.mem r hr).elim (fun h => h ▸ hfirst) (hrequests r)
    refine Host.spec_reserve ?_ (Halt.error_ne_panic _)
    cases hs : sortBy ByteRange.key (admitted limits first requests).1 with
    | nil =>
      have hmem : first ∈ sortBy ByteRange.key (admitted limits first requests).1 :=
        mem_sortBy.mpr haffordable.first_mem
      rw [hs] at hmem
      cases hmem
    | cons cur rest =>
      have hperm : (cur :: rest).Perm (admitted limits first requests).1 := hs ▸ sortBy_perm _ _
      have hsum : (admitted limits first requests).2 =
          0 + ((cur :: rest).map ByteRange.length).sum := by
        rw [Nat.zero_add, (hperm.map _).sum_eq, haffordable.sum]
      dsimp only
      rw [planLoop_eq o (fun r hr => hu64 r (hperm.mem_iff.mp hr)) hsum haffordable.bytes]
      exact ⟨hbytes, hne, planned_sweep haffordable hu64 hs⟩
  · intro e he
    unfold IoLimits.bytes at he
    split at he <;> cases he
    exact Halt.error_ne_panic _
  · intro e he
    unfold IoLimits.reading at he
    split at he <;> cases he
    exact Halt.error_ne_panic _

end Zencodec.Io
