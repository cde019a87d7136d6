/-
Fetching the ranges of a plan.

`allocateRanges` makes a buffer for each range, over those of the round before, and
`findHolding` looks up the buffer that holds a range. The buffers keep within the limit
(`spec_allocateRanges`), and every range that the plan admitted is found (`findHolding_of_plan`).

`checkNeed` is the check that every driver makes of the requests of its stage.
-/
import Zencodec.Io.Window
import Zencodec.Lib.Checks

namespace Zencodec.Io

open Incremental (ByteRange Input InputRequest u64Max saturatingAdd)

variable {Ω : Type}

/-! ### The protocol check -/

/-- A decoder broke the protocol of incremental decoding. -/
inductive ProtocolViolation where
  | emptyRequest
  | addressOverflow (request : InputRequest)
  | noProgress (request : InputRequest)
  | needPastEnd (request : InputRequest) (total : ℕ)
  deriving DecidableEq, Repr

/-- The span of a request with an address: `AtLeast` counts for a byte at least. -/
def requestSpan : InputRequest → Option ByteRange
  | .atLeast offset minLen => some ⟨offset, max minLen 1⟩
  | .range r => some r
  | .len => none

/-- Whether a request goes past the end. -/
def pastEnd (total : ℕ) : InputRequest → Bool
  | .atLeast offset _ => decide (total < offset)
  | .range r => decide (total < r.stop)
  | .len => false

/-- A request's offset plus length cannot be represented by the protocol. -/
def overflows (r : InputRequest) : Bool :=
  (requestSpan r).any fun s => decide (u64Max < s.offset + s.length)

/-- Fail with a request if there is one. -/
def refuse (r : Option InputRequest) (violation : InputRequest → ProtocolViolation) :
    Except ProtocolViolation Unit :=
  match r with
  | some r => .error (violation r)
  | none => .ok ()

/-- Refuse what goes past a known end. -/
def checkEnd (requests : List InputRequest) : Option ℕ → Except ProtocolViolation Unit
  | some total => refuse (requests.find? (pastEnd total)) fun r => .needPastEnd r total
  | none => .ok ()

/-- Check a `Need` against the input that was just offered. -/
def checkNeed (requests : List InputRequest) (offered : Input) (consumed : ℕ) :
    Except ProtocolViolation Unit :=
  if requests.isEmpty then .error .emptyRequest
  else do
    refuse (requests.find? overflows) .addressOverflow
    checkEnd requests offered.totalLen
    if consumed = 0 then
      refuse (requests.find? fun r => r.isSatisfiedBy offered) .noProgress
    else .ok ()

theorem refuse_eq_ok {p : InputRequest → Bool} {requests : List InputRequest}
    {violation : InputRequest → ProtocolViolation} :
    refuse (requests.find? p) violation = .ok () ↔ ∀ r ∈ requests, p r = false := by
  cases h : requests.find? p with
  | none =>
    refine ⟨fun _ r hr => ?_, fun _ => rfl⟩
    exact Bool.eq_false_iff.mpr (List.find?_eq_none.mp h r hr)
  | some r =>
    refine ⟨fun hok => (by cases hok), fun hall => ?_⟩
    have hp : p r = true := List.find?_some h
    exact absurd (hall r (List.mem_of_find?_eq_some h)) (by rw [hp]; decide)

/-- What the requests have passed. -/
theorem checkNeed_ok {requests : List InputRequest} {offered : Input} {consumed : ℕ}
    (h : checkNeed requests offered consumed = .ok ()) {r : InputRequest} (hr : r ∈ requests) :
    overflows r = false ∧ (∀ total ∈ offered.totalLen, pastEnd total r = false) ∧
      (consumed = 0 → r.isSatisfiedBy offered = false) := by
  rw [checkNeed, Checks.guard_eq_ok, Checks.seq_eq_ok, Checks.seq_eq_ok, refuse_eq_ok] at h
  obtain ⟨-, hoverflow, hend, hprogress⟩ := h
  refine ⟨hoverflow r hr, fun total htotal => ?_, fun hzero => ?_⟩
  · rw [show offered.totalLen = some total from htotal] at hend
    exact refuse_eq_ok.mp hend r hr
  · rw [if_pos hzero] at hprogress
    exact refuse_eq_ok.mp hprogress r hr

theorem checkNeed_addressable {requests : List InputRequest} {offered : Input} {consumed : ℕ}
    (h : checkNeed requests offered consumed = .ok ()) {r : ByteRange}
    (hr : InputRequest.range r ∈ requests) : Addressable r := by
  have hover : decide (u64Max < r.offset + r.length) = false := (checkNeed_ok h hr).1
  exact not_lt.mp (of_decide_eq_false hover)

/-! ### Capacity -/

/-- The capacity of all fetched buffers, saturating. -/
def fetchedCapacity (usizeMax : ℕ) (fetched : List Fetched) : ℕ :=
  fetched.foldl (fun sum f => min (sum + f.2.capacity) usizeMax) 0

/-- The capacity that there is. -/
def capacitySum (fetched : List Fetched) : ℕ := (fetched.map fun f => f.2.capacity).sum

@[simp] theorem capacitySum_nil : capacitySum [] = 0 := rfl

@[simp] theorem capacitySum_cons (f : Fetched) (l : List Fetched) :
    capacitySum (f :: l) = f.2.capacity + capacitySum l := by
  rw [capacitySum, List.map_cons, List.sum_cons, capacitySum]

theorem fetchedCapacity_eq (usizeMax : ℕ) (fetched : List Fetched) :
    fetchedCapacity usizeMax fetched = min (capacitySum fetched) usizeMax := by
  have hfold : ∀ (l : List Fetched) (n : ℕ), l.foldl
      (fun sum f => min (sum + f.2.capacity) usizeMax) (min n usizeMax) =
        min (n + capacitySum l) usizeMax := by
    intro l
    induction l with
    | nil => exact fun n => rfl
    | cons f l ih =>
      intro n
      rw [List.foldl_cons, capacitySum_cons, ← Nat.add_assoc, ← ih]
      congr 1
      omega
  have h := hfold fetched 0
  rw [Nat.zero_min, Nat.zero_add] at h
  exact h

/-- Give up the fetched buffers if they and the window would not fit together. -/
def makeRoom (usizeMax : ℕ) (window : Window) (fetched : List Fetched) (target : ℕ)
    (limits : IoLimits) : List Fetched :=
  let needed := min (fetchedCapacity usizeMax fetched + max window.capacity target) usizeMax
  if limits.inputBytes < needed then [] else fetched

/-- Allocate a buffer for each range, over the capacity of those that are there. -/
def allocLoop (mem : Memory Ω) (limits : IoLimits) :
    List (ByteRange × Fetched) → ℕ → Act Ω InputError (List Fetched)
  | [], _ => pure []
  | (range, f) :: rest, used => do
    let len ← Act.lift (limits.bytes range.length)
    let buf ← mem.reserveBuf f.2 len
    let used := min (used + buf.capacity) mem.usizeMax
    let _ ← Act.lift (limits.bytes used)
    let others ← allocLoop mem limits rest used
    pure ((range.offset, buf.resize len) :: others)

/-- What reusing `fetched` for `ranges` would hold. -/
def reusable (usizeMax : ℕ) (ranges : List ByteRange) (fetched : List Fetched) : ℕ :=
  ranges.zipIdx.foldl (fun sum p => min (sum +
    max ((fetched[p.2]?).elim 0 fun f => f.2.capacity) (p.1.length % (usizeMax + 1))) usizeMax) 0

def allocateRanges (mem : Memory Ω) (ranges : List ByteRange) (limits : IoLimits)
    (fetched : List Fetched) : Act Ω InputError (List Fetched) := do
  let kept := fetched.take ranges.length
  let kept := if limits.inputBytes < reusable mem.usizeMax ranges kept then [] else kept
  mem.reserve (.allocation (min (ranges.length * mem.fetchedSize) mem.usizeMax))
  let slots := kept ++ List.replicate (ranges.length - kept.length) (0, Buf.empty)
  allocLoop mem limits (ranges.zip slots) 0

/-- Where the bytes of a fetched buffer are. -/
def Fetched.range (f : Fetched) : ByteRange := ⟨f.1, f.2.data.length⟩

theorem spec_allocLoop (mem : Memory Ω) (limits : IoLimits) (slots : List (ByteRange × Fetched))
    (used : ℕ) (w : Ω) :
    Act.Spec (allocLoop mem limits slots used)
      (fun out _ => out.map Fetched.range = slots.map Prod.fst ∧
        (limits.inputBytes < mem.usizeMax → used ≤ limits.inputBytes →
          used + capacitySum out ≤ limits.inputBytes))
      (fun _ _ => True) w := by
  induction slots generalizing used w with
  | nil => exact ⟨rfl, fun _ h => h⟩
  | cons slot rest ih =>
    obtain ⟨range, f⟩ := slot
    simp only [allocLoop, Act.spec_bind, Act.spec_lift, Act.spec_pure]
    refine ⟨fun len hlen => ?_, fun _ _ => trivial⟩
    obtain ⟨hle, rfl⟩ := IoLimits.bytes_ok hlen
    refine (mem.spec_reserveBuf _ _ _).mono (fun buf w hbuf => ⟨fun n hn => ?_, fun _ _ =>
      trivial⟩) (fun _ _ _ => trivial)
    obtain ⟨hused, -⟩ := IoLimits.bytes_ok hn
    refine (ih _ w).mono (fun out _ hout => ⟨?_, fun hlt husedle => ?_⟩) (fun _ _ _ => trivial)
    · rw [List.map_cons, hout.1]
      simp [Fetched.range, Buf.length_resize]
    · have hsum := hout.2 hlt hused
      rw [capacitySum_cons, Buf.capacity_resize hbuf.2]
      omega

/-- The buffers are laid out as the ranges, and within the limit. -/
theorem spec_allocateRanges (mem : Memory Ω) (ranges : List ByteRange) (limits : IoLimits)
    (fetched : List Fetched) (w : Ω) :
    Act.Spec (allocateRanges mem ranges limits fetched)
      (fun out _ => out.map Fetched.range = ranges ∧
        (limits.inputBytes < mem.usizeMax → capacitySum out ≤ limits.inputBytes))
      (fun _ _ => True) w := by
  unfold allocateRanges
  simp only [Act.spec_bind]
  refine Host.spec_reserve ?_ trivial
  refine (spec_allocLoop mem limits _ 0 _).mono (fun out _ hout => ⟨?_, fun hlt => ?_⟩)
    (fun _ _ _ => trivial)
  · rw [hout.1, List.map_fst_zip]
    rw [List.length_append, List.length_replicate]
    omega
  · simpa using hout.2 hlt (Nat.zero_le _)

/-! ### Lookup -/

/-- Whether a fetched buffer holds the range. -/
def holds (o : Overflow) (first : ByteRange) (f : Fetched) : Option Bool :=
  if f.1 ≤ first.offset then do
    let stop ← o.nat 64 (f.1 + f.2.data.length)
    some (decide (first.stop ≤ stop))
  else some false

/-- The position of the first fetched buffer that holds the range. -/
def findHolding (o : Overflow) (first : ByteRange) : List Fetched → Option (Option ℕ)
  | [] => some none
  | f :: rest => do
    let held ← holds o first f
    if held then some (some 0)
    else do
      let i ← findHolding o first rest
      some (i.map Nat.succ)

theorem holds_eq {o : Overflow} {first : ByteRange} {f : Fetched} (hf : Addressable f.range) :
    holds o first f = some (decide (f.1 ≤ first.offset ∧ first.stop ≤ f.range.stop)) := by
  have hlt : f.1 + f.2.data.length < 2 ^ 64 :=
    lt_of_le_of_lt hf (Nat.sub_lt (Nat.two_pow_pos 64) Nat.one_pos)
  have hstop : f.range.stop = f.1 + f.2.data.length := hf.stop_eq
  unfold holds
  rw [o.nat_of_lt hlt, hstop]
  by_cases hle : f.1 ≤ first.offset <;> simp [hle]

/-- Every range within one of the buffers is found. -/
theorem exists_findHolding {o : Overflow} {first : ByteRange} {fetched : List Fetched}
    (haddr : ∀ f ∈ fetched, Addressable f.range) {f : Fetched} (hf : f ∈ fetched)
    (hstart : f.1 ≤ first.offset) (hstop : first.stop ≤ f.range.stop) :
    ∃ i, findHolding o first fetched = some (some i) := by
  induction fetched with
  | nil => cases hf
  | cons g rest ih =>
    rw [findHolding, holds_eq (haddr g List.mem_cons_self)]
    simp only [Option.bind_eq_bind, Option.bind_some, decide_eq_true_eq]
    by_cases hg : g.1 ≤ first.offset ∧ first.stop ≤ g.range.stop
    · exact ⟨0, if_pos hg⟩
    · rw [if_neg hg]
      have hrest : f ∈ rest := (List.mem_cons.mp hf).resolve_left
        fun h => hg (h ▸ ⟨hstart, hstop⟩)
      obtain ⟨i, hi⟩ := ih (fun f hf => haddr f (List.mem_cons_of_mem _ hf)) hrest
      exact ⟨i + 1, by rw [hi]; rfl⟩

theorem findHolding_of_plan {o : Overflow} {gap : ℕ} {limits : IoLimits} {l out : List ByteRange}
    {buffers : List Fetched} (hplan : Planned gap limits l out) (haddr : ∀ r ∈ l, Addressable r)
    (hbuffers : buffers.map Fetched.range = out) {r : ByteRange} (hr : r ∈ l) :
    ∃ i, findHolding o r buffers = some (some i) := by
  obtain ⟨c, hc, hstart, hstop⟩ := hplan.covers r hr
  obtain ⟨f, hf, rfl⟩ := List.mem_map.mp (hbuffers ▸ hc)
  refine exists_findHolding (fun g hg => ?_) hf hstart hstop
  exact hplan.addressable haddr _ (hbuffers ▸ List.mem_map_of_mem hg)

/-! ### Admission -/

/-- **Coalescing and planning.** Coalescing merges what is close and nothing else, whatever the
order of the ranges, and again changes nothing unless the ranges collapse at the last address.
A plan never overflows, is in order and disjoint, covers what it admitted and keeps within the
limits; over requests that passed the check, the buffers that are allocated for it are laid out
as the plan, and every range that it admitted is found in them. -/
theorem admission_covers (o : Overflow) (gap : ℕ) :
    (∀ ranges : List ByteRange, (∀ r ∈ ranges, r.IsU64) → ∃ out,
      coalesceInto o ranges gap = some out ∧ Coalesced gap ranges out ∧
      (∀ ranges', ranges.Perm ranges' → coalesceInto o ranges' gap = some out) ∧
      (coalesceInto o out gap = some out ↔ ¬Collapses gap ranges)) ∧
    ∀ (mem : Memory Ω) (limits : IoLimits) (first : ByteRange) (requests : List InputRequest)
      (w : Ω), first.IsU64 → (∀ r, InputRequest.range r ∈ requests → r.IsU64) →
      (plan mem.toHost o first requests gap limits w).1 ≠ .error .panic ∧
      ∀ out, (plan mem.toHost o first requests gap limits w).1 = .ok out →
        Planned gap limits (admitted limits first requests).1 out ∧
        ∀ (input : Input) (consumed : ℕ), checkNeed requests input consumed = .ok () →
          InputRequest.range first ∈ requests →
          (∀ fetched w' buffers, (allocateRanges mem out limits fetched w').1 = .ok buffers →
            buffers.map Fetched.range = out) ∧
          ∀ buffers, buffers.map Fetched.range = out →
            ∀ r ∈ (admitted limits first requests).1,
              ∃ i, findHolding o r buffers = some (some i) := by
  refine ⟨fun ranges hu64 => ?_, fun mem limits first requests w hfirst hrequests => ?_⟩
  · obtain ⟨out, hout, -, hcoalesced⟩ := coalesced_coalesceInto o gap hu64
    exact ⟨out, hout, hcoalesced, fun ranges' hperm => (coalesceInto_perm o hperm).symm.trans hout,
      coalesceInto_idempotent_iff o hu64 hout⟩
  · have hspec : Act.Spec (plan mem.toHost o first requests gap limits) _ _ w :=
      spec_plan hfirst hrequests
    have hrun := hspec.run
    refine ⟨fun hpanic => hrun.2 _ hpanic rfl, fun out hout => ?_⟩
    obtain ⟨hbytes, hranges, hplan⟩ := hrun.1 out hout
    refine ⟨hplan, fun input consumed hcheck hmem => ⟨fun fetched w' buffers hbuffers => ?_,
      fun buffers hbuffers r hr => ?_⟩⟩
    · exact ((spec_allocateRanges mem out limits fetched w').run.1 buffers hbuffers).1
    · refine findHolding_of_plan hplan (fun t ht => ?_) hbuffers hr
      rcases (affordable_admitted hbytes hranges requests).mem t ht with rfl | ht
      · exact checkNeed_addressable hcheck hmem
      · exact checkNeed_addressable hcheck ht

/-- Two ranges at the last address collapse to an empty one, which a second pass drops. -/
theorem lastRanges_collapse :
    coalesceInto .panics [⟨u64Max, 1⟩, ⟨u64Max, 1⟩] 0 = some [⟨u64Max, 0⟩] ∧
      coalesceInto .panics [⟨u64Max, 0⟩] 0 = some [] := by
  decide

/-- A 64-bit host whose allocator gives what is asked for. -/
def plainMemory : Memory Unit where
  usizeMax := u64Max
  tryReserve := fun w => (true, w)
  grow := fun _ w => (some 0, w)
  fetchedSize := 32
  requestSize := 24

def nearRequests : List InputRequest := [.range ⟨180, 20⟩, .range ⟨100, 50⟩]

theorem admission_covers_near :
    (∃ out, coalesceInto .panics [⟨500, 100⟩, ⟨100, 50⟩, ⟨180, 20⟩] 64 = some out ∧
      Coalesced 64 [⟨500, 100⟩, ⟨100, 50⟩, ⟨180, 20⟩] out) ∧
    ∀ buffers : List Fetched, buffers.map Fetched.range = [⟨100, 100⟩] →
      ∃ i, findHolding .panics ⟨100, 50⟩ buffers = some (some i) := by
  have hall := admission_covers (Ω := Unit) .panics 64
  have hu64 : ∀ r ∈ [(⟨500, 100⟩ : ByteRange), ⟨100, 50⟩, ⟨180, 20⟩], r.IsU64 := by
    intro r hr
    simp only [List.mem_cons, List.not_mem_nil, or_false] at hr
    rcases hr with rfl | rfl | rfl <;> exact ⟨by decide, by decide⟩
  have hrequests : ∀ r, InputRequest.range r ∈ nearRequests → r.IsU64 := by
    intro r hr
    simp only [nearRequests, List.mem_cons, List.not_mem_nil, or_false,
      InputRequest.range.injEq] at hr
    rcases hr with rfl | rfl <;> exact ⟨by decide, by decide⟩
  obtain ⟨out, hout, hcoalesced, -⟩ := hall.1 _ hu64
  obtain ⟨-, hplan⟩ := hall.2 plainMemory ⟨1000, 4, 1, by decide⟩ ⟨180, 20⟩ nearRequests ()
    ⟨by decide, by decide⟩ hrequests
  obtain ⟨-, hlookup⟩ := hplan [⟨100, 100⟩] (by rfl)
  refine ⟨⟨out, hout, hcoalesced⟩, fun buffers hbuffers => ?_⟩
  exact (hlookup ⟨0, [], none⟩ 0 (by rfl) List.mem_cons_self).2 buffers hbuffers _ (by decide)

end Zencodec.Io
