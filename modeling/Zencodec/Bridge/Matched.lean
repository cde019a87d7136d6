/-
When the replies of the pull bridge match its requests.

The channels carry no identifiers, so a reply is matched by being the only one under way.
`Underway source q s` is that situation: the one message of the bridge is the request `q` or the
answer to it. It starts when a request is sent over an empty bridge, and holds until the thread
takes the reply. A thread that gives up leaves the message behind, and one that then sends again
takes the old reply for the new one.

* `receive_faithful` — a call that takes the answer to its own request;
* `inv_step` — one step, which sends over an empty bridge or not at all;
* `pull_matched` — any run of such steps;
* `pull_unmatched` — one cancelled call is enough to break it, and so is a read past the end.
-/
import Zencodec.Bridge.Links

namespace Zencodec.Bridge

variable {source : List UInt8} {pulse : Bool} {s s' : State} {l : Label}

/-! ### Answers of the source -/

/-- How a faithful source answers a request, if it does not fail. -/
def Answers (source : List UInt8) : Request → Reply → Prop
  | _, .failed => True
  | .readAt offset want, .bytes b => b = slice source offset want
  | .ranges ranges, .ranges bufs =>
    bufs = ranges.map (fun r => slice source r.offset r.length) ∧
      ∀ r ∈ ranges, (slice source r.offset r.length).length = r.length
  | .len, .len n => n = source.length
  | _, _ => False

/-- A read in progress has the first bytes of what it will return. -/
def Partial (source : List UInt8) (q : Request) (filled : List UInt8) : Prop :=
  ∀ offset want, q = .readAt offset want →
    filled = slice source offset filled.length ∧ filled.length ≤ want

theorem slice_length (source : List UInt8) (offset want : ℕ) :
    (slice source offset want).length = min want (source.length - offset) := by
  rw [slice, List.length_take, List.length_drop]

theorem slice_append (source : List UInt8) (offset a b : ℕ) :
    slice source offset a ++ slice source (offset + a) b = slice source offset (a + b) := by
  rw [slice, slice, slice, List.take_add, List.drop_drop]

/-- Zero bytes past the end are all there are. -/
theorem slice_of_end {offset want a : ℕ} (h : source.length ≤ offset + a) (ha : a ≤ want) :
    slice source offset a = slice source offset want := by
  have hlen : (source.drop offset).length ≤ a := by
    rw [List.length_drop]
    omega
  rw [slice, slice, List.take_of_length_le hlen, List.take_of_length_le (by omega)]

/-- A read in progress goes on with the next bytes. -/
theorem partial_read {offset want n : ℕ} {filled : List UInt8}
    (hfilled : filled = slice source offset filled.length) (hroom : filled.length + n ≤ want)
    (havail : offset + filled.length + n ≤ source.length) :
    filled ++ slice source (offset + filled.length) n
        = slice source offset (filled ++ slice source (offset + filled.length) n).length ∧
      (filled ++ slice source (offset + filled.length) n).length ≤ want := by
  have hlen : (filled ++ slice source (offset + filled.length) n).length = filled.length + n := by
    rw [List.length_append, slice_length]
    omega
  rw [hlen]
  refine ⟨?_, hroom⟩
  calc filled ++ slice source (offset + filled.length) n
      = slice source offset filled.length ++ slice source (offset + filled.length) n := by
        rw [← hfilled]
    _ = slice source offset (filled.length + n) := slice_append source offset _ n

/-! ### One call -/

theorem receiveBytes_slice (offset want : ℕ) (known : Option ℕ) :
    receiveBytes offset want known (slice source offset want) =
      (.bytes (slice source offset want),
        if (slice source offset want).length < want
        then some (offset + (slice source offset want).length) else known) := by
  refine if_neg ?_
  rw [slice_length]
  omega

/-- The length that a short read infers, where the read starts inside the source. -/
theorem inferred_length {offset want : ℕ} {known : Option ℕ}
    (hwithin : want = 0 ∨ offset ≤ source.length) (hknown : ∀ n, known = some n → n = source.length)
    (n : ℕ) (hn : (if (slice source offset want).length < want
      then some (offset + (slice source offset want).length) else known) = some n) :
    n = source.length := by
  split at hn
  · next hshort =>
    rw [← Option.some.inj hn]
    rw [slice_length] at hshort ⊢
    omega
  · exact hknown n hn

/-- The buffers of a faithful reply fit. -/
theorem zip_map_slice (ranges : List ByteRange) :
    ((ranges.zip (ranges.map fun r => slice source r.offset r.length)).map Prod.snd
      = ranges.map fun r => slice source r.offset r.length) ∧
    ((∀ r ∈ ranges, (slice source r.offset r.length).length = r.length) →
      (ranges.zip (ranges.map fun r => slice source r.offset r.length)).all
        (fun p => p.1.length = p.2.length) = true) := by
  induction ranges with
  | nil => exact ⟨rfl, fun _ => rfl⟩
  | cons r ranges ih =>
    constructor
    · simp only [List.map_cons, List.zip_cons_cons, ih.1]
    · intro h
      simp only [List.map_cons, List.zip_cons_cons, List.all_cons, Bool.and_eq_true,
        decide_eq_true_eq]
      exact ⟨(h r List.mem_cons_self).symm, ih.2 fun r' hr' => h r' (List.mem_cons_of_mem r hr')⟩

/-- A call that takes the answer to its own request returns what the source has, and learns
nothing false. -/
theorem receive_faithful {c : Call} {r : Reply} {known : Option ℕ}
    (hr : Answers source c.request r) (hwithin : c.Within source)
    (hknown : ∀ n, known = some n → n = source.length) :
    Faithful source c (c.receive known r).1 ∧
      ∀ n, (c.receive known r).2 = some n → n = source.length := by
  cases c with
  | len =>
    cases r with
    | failed => exact ⟨trivial, hknown⟩
    | len n => exact ⟨hr, fun m hm => (Option.some.inj hm).symm.trans hr⟩
    | bytes | ranges => exact hr.elim
  | readAt offset want =>
    cases r with
    | failed => exact ⟨trivial, hknown⟩
    | bytes b =>
      obtain rfl : b = slice source offset want := hr
      simp only [Call.receive, receiveBytes_slice]
      exact ⟨rfl, inferred_length hwithin hknown⟩
    | len | ranges => exact hr.elim
  | readExactAt offset want =>
    cases r with
    | failed => exact ⟨trivial, hknown⟩
    | bytes b =>
      obtain rfl : b = slice source offset want := hr
      have hinfer : ∀ n, (if (slice source offset want).length < want
          then some (offset + (slice source offset want).length) else known) = some n →
          n = source.length := inferred_length hwithin hknown
      simp only [Call.receive, receiveBytes_slice]
      split
      · next hshort =>
        rw [if_pos hshort] at hinfer
        exact ⟨congrArg some (hinfer _ rfl), hinfer⟩
      · next hfull =>
        rw [if_neg hfull] at hinfer
        refine ⟨⟨rfl, ?_⟩, hinfer⟩
        rw [slice_length] at hfull ⊢
        omega
    | len | ranges => exact hr.elim
  | readManyAt ranges =>
    cases r with
    | failed => exact ⟨trivial, hknown⟩
    | ranges bufs =>
      obtain ⟨rfl, hfull⟩ := hr
      simp only [Call.receive, (zip_map_slice ranges).2 hfull, if_true]
      exact ⟨(zip_map_slice ranges).1, hknown⟩
    | len | bytes => exact hr.elim

/-! ### The message under way -/

/-- The one message of the bridge is the request `q`, or the answer to it; unless the
asynchronous side has gone and taken it along. -/
inductive Underway (source : List UInt8) (q : Request) (s : State) : Prop
  | sent (hq : s.request = some q) (hr : s.reply = none)
      (hs : s.server = .receiving ∨ s.server = .gone)
  | served (filled : List UInt8) (hq : s.request = none) (hr : s.reply = none)
      (hs : s.server = .serving q filled) (hp : Partial source q filled)
  | answered (r : Reply) (hq : s.request = none) (hr : s.reply = none)
      (hs : s.server = .replying r) (ha : Answers source q r)
  | delivered (r : Reply) (hq : s.request = none) (hr : s.reply = some r)
      (hs : s.server = .receiving ∨ s.server = .gone) (ha : Answers source q r)
  | lost (hr : s.reply = none) (hs : s.server = .gone)

/-- What a thread that waits relies on, and what the known length is. -/
structure Inv (source : List UInt8) (s : State) : Prop where
  len : ∀ n, s.len = some n → n = source.length
  waiting : ∀ c, s.codec = .waiting c → c.Within source ∧ Underway source c.request s

/-- A step of the thread that is not a wait leaves the message alone. -/
theorem Inv.of_not_waiting (h : Inv source s) (hlen : s'.len = s.len)
    (hcodec : ∀ c, s'.codec ≠ .waiting c) : Inv source s' :=
  ⟨fun n hn => h.len n (hlen ▸ hn), fun c hc => absurd hc (hcodec c)⟩

/-- A step of the asynchronous side moves the message along. -/
theorem Inv.of_server (h : Inv source s) (hlen : s'.len = s.len) (hcodec : s'.codec = s.codec)
    (hmove : ∀ q, Underway source q s → Underway source q s') : Inv source s' :=
  ⟨fun n hn => h.len n (hlen ▸ hn), fun c hc =>
    ⟨(h.waiting c (hcodec ▸ hc)).1, hmove _ (h.waiting c (hcodec ▸ hc)).2⟩⟩

/-- What is being served, is being served for the request under way. -/
theorem Underway.serving {q q' : Request} {filled : List UInt8} (h : Underway source q s)
    (hs : s.server = .serving q' filled) :
    q' = q ∧ s.request = none ∧ s.reply = none ∧ Partial source q filled := by
  cases h with
  | served filled' hq hr hs' hp =>
    rw [hs] at hs'
    obtain ⟨rfl, rfl⟩ := Server.serving.inj hs'
    exact ⟨rfl, hq, hr, hp⟩
  | sent _ _ hs' => rcases hs' with hs' | hs' <;> rw [hs] at hs' <;> cases hs'
  | delivered _ _ _ hs' => rcases hs' with hs' | hs' <;> rw [hs] at hs' <;> cases hs'
  | answered _ _ _ hs' => rw [hs] at hs'; cases hs'
  | lost _ hs' => rw [hs] at hs'; cases hs'

/-- An answer to what is served becomes the message under way. -/
theorem Underway.answer {q q' : Request} {filled : List UInt8} (h : Underway source q s)
    (hs : s.server = .serving q' filled) (r : Reply)
    (hr : q' = q → Partial source q filled → Answers source q r) :
    Underway source q { s with server := .replying r } := by
  obtain ⟨hq, hreq, hrep, hp⟩ := h.serving hs
  exact .answered r hreq hrep rfl (hr hq hp)

/-- The reply that a waiting thread finds is the answer. -/
theorem Underway.reply {q : Request} {r : Reply} (h : Underway source q s)
    (hr : s.reply = some r) : Answers source q r := by
  cases h with
  | delivered r' _ hr' _ ha =>
    obtain rfl := Option.some.inj (hr.symm.trans hr')
    exact ha
  | sent _ hr' | served _ _ hr' | answered _ _ hr' | lost hr' => rw [hr] at hr'; cases hr'

theorem inv_step (h : Inv source s) (hclean : Clean source s l) (hstep : Step source pulse s l s') :
    Inv source s' := by
  cases hstep with
  | lenKnown | lenHint => exact h
  | call | refuse | pass | cancelSend | sendClosed | cancelWait | waitClosed | finish =>
    exact h.of_not_waiting rfl fun c hc => by cases hc
  | send hc hr hg =>
    -- the bridge was empty, and now has this request alone
    obtain ⟨hserver, hreply, hwithin⟩ := hclean _ rfl
    refine ⟨h.len, fun c hc => ?_⟩
    obtain rfl := Codec.waiting.inj hc
    exact ⟨hwithin, .sent rfl hreply (.inl hserver)⟩
  | receive hc hr =>
    obtain ⟨hwithin, hunder⟩ := h.waiting _ hc
    have hreceive := receive_faithful (hunder.reply hr) hwithin h.len
    refine ⟨hreceive.2, fun c' hc' => ?_⟩
    generalize (Call.receive _ _ _).1 = answer at hc'
    cases answer <;> cases hc'
  | accept hs hr =>
    refine h.of_server rfl rfl fun q hq => ?_
    cases hq with
    | sent hreq hrep _ =>
      obtain rfl := Option.some.inj (hreq.symm.trans hr)
      exact .served [] rfl hrep rfl fun _ _ _ => ⟨rfl, Nat.zero_le _⟩
    | served _ hreq | answered _ hreq | delivered _ hreq => rw [hr] at hreq; cases hreq
    | lost _ hgone => rw [hs] at hgone; cases hgone
  | read n hs hpos hroom havail =>
    refine h.of_server rfl rfl fun q hq => ?_
    obtain ⟨rfl, hreq, hrep, hp⟩ := hq.serving hs
    refine .served _ hreq hrep rfl fun offset want hw => ?_
    obtain ⟨rfl, rfl⟩ := Request.readAt.inj hw
    exact partial_read (hp _ _ rfl).1 hroom havail
  | readEnd hs hend =>
    refine h.of_server rfl rfl fun q hq => hq.answer hs _ fun hq hp => ?_
    subst hq
    obtain ⟨hfilled, hle⟩ := hp _ _ rfl
    exact hfilled.trans (slice_of_end hend hle)
  | readFull hs hlen =>
    refine h.of_server rfl rfl fun q hq => hq.answer hs _ fun hq hp => ?_
    subst hq
    obtain ⟨hfilled, hle⟩ := hp _ _ rfl
    exact hfilled.trans (by rw [Nat.le_antisymm hle hlen])
  | readRanges hs hfull =>
    refine h.of_server rfl rfl fun q hq => hq.answer hs _ fun hq _ => ?_
    subst hq
    exact ⟨rfl, hfull⟩
  | readLen hs =>
    refine h.of_server rfl rfl fun q hq => hq.answer hs _ fun hq _ => ?_
    subst hq
    rfl
  | fail hs =>
    refine h.of_server rfl rfl fun q hq => hq.answer hs _ fun _ _ => ?_
    cases q <;> trivial
  | reply hs hr =>
    refine h.of_server rfl rfl fun q hq => ?_
    cases hq with
    | answered r' hreq hrep hs' ha =>
      obtain rfl := Server.replying.inj (hs.symm.trans hs')
      exact .delivered _ hreq rfl (.inl rfl) ha
    | served _ _ _ hs' => rw [hs] at hs'; cases hs'
    | sent _ _ hs' => rcases hs' with hs' | hs' <;> rw [hs] at hs' <;> cases hs'
    | delivered _ _ _ hs' => rcases hs' with hs' | hs' <;> rw [hs] at hs' <;> cases hs'
    | lost _ hs' => rw [hs] at hs'; cases hs'
  | leave =>
    refine h.of_server rfl rfl fun q hq => ?_
    cases hq with
    | sent hreq hrep _ => exact .sent hreq hrep (.inr rfl)
    | delivered r hreq hrep _ ha => exact .delivered r hreq hrep (.inr rfl) ha
    | served _ _ hrep | answered _ _ hrep | lost hrep => exact .lost hrep rfl

theorem faithful_cancelled (c : Call) : Faithful source c (.error .cancelled) := by
  cases c <;> trivial

theorem faithful_disconnected (c : Call) : Faithful source c (.error .disconnected) := by
  cases c <;> trivial

/-- What the thread sees in one step is true. -/
theorem step_faithful (h : Inv source s) (hstep : Step source pulse s l s') :
    l.Faithful source := by
  cases hstep with
  | lenKnown _ hn => exact h.len _ hn
  | lenHint => exact h.len
  | refuse | cancelSend | cancelWait => exact faithful_cancelled _
  | sendClosed | waitClosed => exact faithful_disconnected _
  | receive hc hr =>
    obtain ⟨hwithin, hunder⟩ := h.waiting _ hc
    exact (receive_faithful (hunder.reply hr) hwithin h.len).1
  | _ => trivial

theorem Initial.inv (h : Initial source s) : Inv source s :=
  ⟨h.hint, fun c hc => by rw [h.codec] at hc; cases hc⟩

/-- A step that meets the condition of `Clean`. -/
def CleanStep (source : List UInt8) (pulse : Bool) (s : State) (l : Label) (s' : State) : Prop :=
  Clean source s l ∧ Step source pulse s l s'

/-- In a run whose sends all meet an empty bridge and ask for no bytes past the end, every call
returns what the source has, and every length is the true one. -/
theorem pull_matched {ls : List Label} (hinit : Initial source s)
    (hrun : Trace.Run (CleanStep source pulse) s ls s') :
    (∀ l ∈ ls, l.Faithful source) ∧ ∀ n, s'.len = some n → n = source.length := by
  have hkeep : ∀ s l s', Inv source s → CleanStep source pulse s l s' → Inv source s' :=
    fun _ _ _ h hstep => inv_step h hstep.1 hstep.2
  constructor
  · exact hrun.labels (P := Inv source) hkeep (fun _ _ _ h hstep => step_faithful h hstep.2)
      hinit.inv
  · exact (hrun.preserves (P := Inv source) hkeep hinit.inv).len

/-- A step that sends nothing meets the condition. -/
theorem CleanStep.of_not_send (hstep : Step source pulse s l s') (h : ∀ c, l ≠ .send c) :
    CleanStep source pulse s l s' :=
  ⟨fun c hc => absurd hc (h c), hstep⟩

/-- Two bytes, which the source hands over one at a time. -/
theorem pull_matched_two :
    ∃ s : State, ∃ ls, Initial [1, 2, 3, 4] s ∧
      Trace.Run (CleanStep [1, 2, 3, 4] false) s ls s ∧
      .returned (.readAt 1 2) (.bytes [2, 3]) ∈ ls ∧
      Label.Faithful [1, 2, 3, 4] (.returned (.readAt 1 2) (.bytes [2, 3])) := by
  let s : State := ⟨.idle, .receiving, none, none, some 4⟩
  have hinit : Initial [1, 2, 3, 4] s := ⟨rfl, rfl, rfl, rfl, fun n hn => (Option.some.inj hn).symm⟩
  suffices hrun : Trace.Run (CleanStep [1, 2, 3, 4] false) s
      [.call (.readAt 1 2), .silent, .send (.readAt 1 2), .silent, .silent, .silent, .silent,
        .silent, .returned (.readAt 1 2) (.bytes [2, 3])] s from
    ⟨s, _, hinit, hrun, by simp, (pull_matched hinit hrun).1 _ (by simp)⟩
  refine .cons (.of_not_send (.call rfl (fun h => by cases h)) (by simp)) ?_
  refine .cons (.of_not_send (.pass rfl) (by simp)) ?_
  refine .cons ⟨fun c hc => ?_, .send rfl rfl (by decide)⟩ ?_
  · obtain rfl := Label.send.inj hc
    exact ⟨rfl, rfl, .inr (by decide)⟩
  refine .cons (.of_not_send (.accept rfl rfl) (by simp)) ?_
  refine .cons (.of_not_send (.read 1 rfl (by decide) (by decide) (by decide)) (by simp)) ?_
  refine .cons (.of_not_send (.read 1 rfl (by decide) (by decide) (by decide)) (by simp)) ?_
  refine .cons (.of_not_send (.readFull rfl (by decide)) (by simp)) ?_
  refine .cons (.of_not_send (.reply rfl rfl) (by simp)) ?_
  refine .cons (.of_not_send (.receive (c := .readAt 1 2) (r := .bytes [2, 3]) rfl rfl) ?_) (.nil s)
  simp

/-- The thread gives up its first read while the reply to it is under way; its second read takes
that reply, and returns the bytes of the first. And where nothing is cancelled, a read past the
end of four bytes teaches the reader that there are nine. -/
theorem pull_unmatched :
    (∃ s s' : State, ∃ ls, Initial [1, 2, 3, 4] s ∧ Trace.Run (Step [1, 2, 3, 4] true) s ls s' ∧
      .returned (.readAt 2 2) (.bytes [1, 2]) ∈ ls ∧ slice [1, 2, 3, 4] 2 2 = [3, 4]) ∧
    ∃ s s' : State, ∃ ls, Initial [1, 2, 3, 4] s ∧ Trace.Run (Step [1, 2, 3, 4] false) s ls s' ∧
      .returned .len (.length 9) ∈ ls := by
  let s : State := ⟨.idle, .receiving, none, none, none⟩
  have hinit : Initial [1, 2, 3, 4] s := ⟨rfl, rfl, rfl, rfl, fun n hn => by cases hn⟩
  constructor
  · refine ⟨s, { s with request := some (.readAt 2 2) }, [.call (.readAt 0 2), .silent,
      .send (.readAt 0 2), .silent, .silent, .silent, .returned (.readAt 0 2) (.error .cancelled),
      .silent, .call (.readAt 2 2), .silent, .send (.readAt 2 2),
      .returned (.readAt 2 2) (.bytes [1, 2])], hinit, ?_, by simp, rfl⟩
    refine .cons (.call rfl (fun h => by cases h)) <| .cons (.pass rfl) <|
      .cons (.send rfl rfl (by decide)) ?_
    -- the request is served, and the thread gives up before the reply is there
    refine .cons (.accept rfl rfl) <| .cons (.read 2 rfl (by decide) (by decide) (by decide)) <|
      .cons (.readFull rfl (by decide)) <| .cons (.cancelWait rfl rfl) <| .cons (.reply rfl rfl) ?_
    -- the cancellation is gone when the thread asks again
    exact .cons (.call rfl (fun h => by cases h)) <| .cons (.pass rfl) <|
      .cons (.send rfl rfl (by decide)) <|
      .cons (.receive (c := .readAt 2 2) (r := .bytes [1, 2]) rfl rfl) (.nil _)
  · refine ⟨s, { s with len := some 9 }, [.call (.readAt 9 1), .silent, .send (.readAt 9 1),
      .silent, .silent, .silent, .returned (.readAt 9 1) (.bytes []),
      .returned .len (.length 9)], hinit, ?_, by simp⟩
    refine .cons (.call rfl (fun h => by cases h)) <| .cons (.pass rfl) <|
      .cons (.send rfl rfl (by decide)) <| .cons (.accept rfl rfl) ?_
    exact .cons (.readEnd rfl (by decide)) <| .cons (.reply rfl rfl) <|
      .cons (.receive (c := .readAt 9 1) (r := .bytes []) rfl rfl) <|
      .cons (.lenKnown rfl rfl) (.nil _)

end Zencodec.Bridge
