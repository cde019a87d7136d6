/-
Every charge is in one place, and the counters add up what all places hold.

* `Weight` and `held` — how much the charges and the threads hold of a quantity; the byte
  counter, the object counter and the places of one charge are each such a quantity;
* `Balanced` — what one step does to `held`, for every weight, and to the counters;
* `Sound` — the invariant of a run: the counters are what is held, and within the limits;
* `act_balanced`, `act_sound` — one step of any thread changes what is held and the counters
  alike, and keeps the invariant;
* `last_owner` — a charge goes with its last owner.
-/
import Zencodec.Lib.Ledger
import Zencodec.Storage.Budget
import Mathlib.Algebra.Order.BigOperators.Group.Finset

open scoped BigOperators

namespace Zencodec.Storage

variable {ι : Type}

/-! ### What is held -/

/-- How much of a quantity a charge holds, a reservation past its first counter, and a
release past its first counter. -/
structure Weight where
  charge : ℕ → ℕ → ℕ
  admitting : ℕ
  releasing : ℕ → ℕ

namespace Weight

def bytes : Weight := ⟨fun _ b => b, 0, fun _ => 0⟩

def objects : Weight := ⟨fun _ _ => 1, 1, fun _ => 1⟩

/-- One for each place where the charge `id` still weighs on the byte counter. -/
def byteCharge (id : ℕ) : Weight := ⟨fun k _ => if k = id then 1 else 0, 0, fun _ => 0⟩

/-- One for each place where the charge `id` still weighs on the object counter. -/
def objectCharge (id : ℕ) : Weight :=
  ⟨fun k _ => if k = id then 1 else 0, 0, fun k => if k = id then 1 else 0⟩

variable (W : Weight)

/-- What a thread holds at a point of its operation. -/
def ofPc : Pc → ℕ
  | .idle _ | .loadObjects _ | .casObjects _ _ => 0
  | .loadBytes _ | .casBytes _ _ | .rollback _ => W.admitting
  | .releaseBytes id bytes _ => W.charge id bytes
  | .releaseObject id _ => W.releasing id

/-- What the number `id` holds while its charge has an owner. -/
def ofCharge (id : ℕ) (c : Option Charge) : ℕ := c.elim 0 fun c => W.charge id c.bytes

/-- What a step brings in. -/
def gain : Event → ℕ
  | .tookObject => W.admitting
  | .tookBytes id bytes => W.charge id bytes
  | .releasedBytes id _ => W.releasing id
  | _ => 0

/-- What a step gives away. -/
def loss : Event → ℕ
  | .tookBytes _ _ => W.admitting
  | .gaveBackObject => W.admitting
  | .releasedBytes id bytes => W.charge id bytes
  | .releasedObject id => W.releasing id
  | _ => 0

end Weight

/-- What the charges and the threads hold together. -/
def held [Fintype ι] (W : Weight) (s : Store ι) : ℕ :=
  ∑ id ∈ Finset.range s.next, W.ofCharge id (s.charges id) + ∑ i, W.ofPc (s.pc i)

section Held

variable [Fintype ι] (W : Weight)

theorem held_setCharge {s : Store ι} {id : ℕ} (hid : id < s.next) (c : Option Charge) :
    held W (s.setCharge id c) + W.ofCharge id (s.charges id) = held W s + W.ofCharge id c := by
  have h := Ledger.sum_update (Finset.range s.next) W.ofCharge s.charges
    (Finset.mem_range.mpr hid) c
  simp only [held, Store.setCharge]
  omega

variable [DecidableEq ι]

theorem held_goto (s : Store ι) (i : ι) (p : Pc) :
    held W (s.goto i p) + W.ofPc (s.pc i) = held W s + W.ofPc p := by
  have h := Ledger.sum_update Finset.univ (fun _ => W.ofPc) s.pc (Finset.mem_univ i) p
  simp only [held, Store.goto]
  omega

/-- The new charge holds what the reservation is about to be granted. -/
theorem held_grant (s : Store ι) (i : ι) (req : Request) :
    held W (s.grant i req) + W.ofPc (s.pc i) = held W s + W.charge s.next req.bytes := by
  have h := Ledger.sum_update Finset.univ (fun _ => W.ofPc) s.pc (Finset.mem_univ i)
    (.idle (.granted s.next req.bytes))
  have hcharges : ∑ id ∈ Finset.range s.next, W.ofCharge id (Function.update s.charges s.next
        (some ⟨req.len, req.size, req.bytes, .prepared, [⟨0, req.len⟩]⟩) id)
      = ∑ id ∈ Finset.range s.next, W.ofCharge id (s.charges id) :=
    Finset.sum_congr rfl fun id hid => by
      rw [Function.update_of_ne (Nat.ne_of_lt (Finset.mem_range.mp hid))]
  simp only [held, Store.grant, Store.goto, Store.setCharge, Finset.sum_range_succ,
    Function.update_self, hcharges]
  simp only [Weight.ofCharge, Option.elim_some, Weight.ofPc] at h ⊢
  omega

theorem ofPc_of_isIdle {p : Pc} (h : p.isIdle = true) : W.ofPc p = 0 := by
  cases p <;> simp_all [Pc.isIdle, Weight.ofPc]

variable {s : Store ι} {i : ι} {id : ℕ} {c : Charge}

/-- A charge that changes hands holds what it held. -/
theorem held_hand_over (hidle : (s.pc i).isIdle = true) (hid : id < s.next)
    (hc : s.charges id = some c) {c' : Charge} (hbytes : c'.bytes = c.bytes) (last : Outcome) :
    held W ((s.setCharge id (some c')).goto i (.idle last)) = held W s := by
  have hpc : W.ofPc ((s.setCharge id (some c')).pc i) = 0 := ofPc_of_isIdle W hidle
  have h₁ := held_goto W (s.setCharge id (some c')) i (.idle last)
  have h₂ := held_setCharge W hid (some c')
  rw [hpc] at h₁
  rw [hc] at h₂
  simp only [Weight.ofCharge, Option.elim_some, hbytes, Weight.ofPc] at h₁ h₂
  omega

/-- The release takes over what the charge held. -/
theorem held_destroy (hidle : (s.pc i).isIdle = true) (hid : id < s.next)
    (hc : s.charges id = some c) (last : Outcome) : held W (s.destroy i id c last) = held W s := by
  have hpc : W.ofPc ((s.setCharge id none).pc i) = 0 := ofPc_of_isIdle W hidle
  have h₁ := held_goto W (s.setCharge id none) i (.releaseBytes id c.bytes last)
  have h₂ := held_setCharge W hid none
  rw [hpc] at h₁
  rw [hc] at h₂
  simp only [Store.destroy, Weight.ofCharge, Option.elim_some, Option.elim_none,
    Weight.ofPc] at h₁ h₂ ⊢
  omega

theorem held_goto_idle (hidle : (s.pc i).isIdle = true) {p : Pc} (hp : W.ofPc p = 0) :
    held W (s.goto i p) = held W s := by
  have h := held_goto W s i p
  rw [ofPc_of_isIdle W hidle, hp] at h
  exact h

end Held

/-! ### One step -/

/-- A charge in order: it has an owner, an `Arc` counts its owners, and every view is inside
the allocation. -/
structure ChargeOk (c : Charge) : Prop where
  owners : c.owners ≠ []
  unique : c.holder = .prepared ∨ c.holder = .owned → c.owners.length = 1
  counted : ∀ strong, c.holder = .shared strong → strong = c.owners.length
  inside : ∀ v ∈ c.owners, v.start ≤ v.stop ∧ v.stop ≤ c.len

/-- What a thread about to swap has checked. -/
def PcOk (limits : Limits) : Pc → Prop
  | .casObjects _ current => current + 1 ≤ limits.maxObjects
  | .casBytes req current => current + req.bytes ≤ limits.maxBytes
  | _ => True

/-- Charges are numbered below `next` and in order, and threads have made their checks. -/
structure Tidy (limits : Limits) (s : Store ι) : Prop where
  fresh : ∀ id c, s.charges id = some c → id < s.next
  charges : ∀ id c, s.charges id = some c → ChargeOk c
  pcs : ∀ i, PcOk limits (s.pc i)

section Tidy

variable {limits : Limits} {s : Store ι}

theorem Tidy.setCharge (h : Tidy limits s) {id : ℕ} (hid : id < s.next) {c : Option Charge}
    (hc : ∀ c' ∈ c, ChargeOk c') : Tidy limits (s.setCharge id c) where
  fresh := fun k d hk => by
    by_cases hkid : k = id
    · rw [hkid]
      exact hid
    · exact h.fresh k d (by simpa [Store.setCharge, Function.update_of_ne hkid] using hk)
  charges := fun k d hk => by
    by_cases hkid : k = id
    · exact hc d (by simpa [Store.setCharge, hkid] using hk)
    · exact h.charges k d (by simpa [Store.setCharge, Function.update_of_ne hkid] using hk)
  pcs := h.pcs

variable [DecidableEq ι]

theorem Tidy.goto (h : Tidy limits s) (i : ι) {p : Pc} (hp : PcOk limits p) :
    Tidy limits (s.goto i p) where
  fresh := h.fresh
  charges := h.charges
  pcs := fun j => by
    by_cases hj : j = i
    · rw [hj]
      simpa [Store.goto] using hp
    · simpa [Store.goto, Function.update_of_ne hj] using h.pcs j

theorem Tidy.grant (h : Tidy limits s) (i : ι) (req : Request) : Tidy limits (s.grant i req) := by
  have hnew : Tidy limits { s.setCharge s.next
      (some ⟨req.len, req.size, req.bytes, .prepared, [⟨0, req.len⟩]⟩) with
      next := s.next + 1 } := by
    refine ⟨fun k d hk => ?_, fun k d hk => ?_, h.pcs⟩
    · by_cases hk' : k = s.next
      · show k < s.next + 1
        omega
      · have := h.fresh k d (by simpa [Store.setCharge, Function.update_of_ne hk'] using hk)
        show k < s.next + 1
        omega
    · by_cases hk' : k = s.next
      · obtain rfl : Charge.mk req.len req.size req.bytes .prepared [⟨0, req.len⟩] = d := by
          simpa [Store.setCharge, hk'] using hk
        exact ⟨by simp, by simp, by simp, by simp⟩
      · exact h.charges k d (by simpa [Store.setCharge, Function.update_of_ne hk'] using hk)
  exact hnew.goto i trivial

theorem tryObjects_ok (limits : Limits) (req : Request) (current : ℕ) :
    PcOk limits (Store.tryObjects limits req current) := by
  unfold Store.tryObjects
  split
  · next h =>
    simp only [Store.admitted, Bool.and_eq_true, decide_eq_true_eq] at h
    exact h.2
  · trivial

theorem tryBytes_ok (limits : Limits) (req : Request) (current : ℕ) :
    PcOk limits (Store.tryBytes limits req current) := by
  unfold Store.tryBytes
  split
  · next h =>
    simp only [Store.admitted, Bool.and_eq_true, decide_eq_true_eq] at h
    exact h.2
  · trivial

theorem advance_tidy (h : Tidy limits s) (i : ι) (spurious : Bool) :
    Tidy limits (s.advance limits i spurious).2 := by
  have hcounters : ∀ objects bytes, Tidy limits { s with objects := objects, bytes := bytes } :=
    fun _ _ => ⟨h.fresh, h.charges, h.pcs⟩
  unfold Store.advance
  cases s.pc i with
  | idle last => exact h
  | loadObjects req => exact h.goto i (tryObjects_ok limits req _)
  | casObjects req current =>
    simp only
    split
    · exact (hcounters _ s.bytes).goto i trivial
    · exact h.goto i (tryObjects_ok limits req _)
  | loadBytes req => exact h.goto i (tryBytes_ok limits req _)
  | casBytes req current =>
    simp only
    split
    · exact (hcounters s.objects _).grant i req
    · exact h.goto i (tryBytes_ok limits req _)
  | rollback req => exact (hcounters _ s.bytes).goto i trivial
  | releaseBytes id bytes last => exact (hcounters s.objects _).goto i trivial
  | releaseObject id last => exact (hcounters _ s.bytes).goto i trivial

end Tidy

/-! ### Starting an operation -/

section Calm

variable [Fintype ι] {limits : Limits} {s : Store ι} {i : ι}

/-- An idle thread `i` starts or finishes something that moves no counter. -/
structure Calm (limits : Limits) (i : ι) (s t : Store ι) : Prop where
  tidy : Tidy limits t
  held : ∀ W, held W t = held W s
  objects : t.objects = s.objects
  bytes : t.bytes = s.bytes
  next : t.next = s.next
  others : ∀ j, j ≠ i → t.pc j = s.pc j
  last : ∀ id c, s.charges id = some c → t.charges id = none → c.owners.length = 1

theorem Calm.refl (h : Tidy limits s) : Calm limits i s s :=
  ⟨h, fun _ => rfl, rfl, rfl, rfl, fun _ _ => rfl, fun id c hc hnone => by
    rw [hc] at hnone
    cases hnone⟩

variable [DecidableEq ι]

theorem Calm.goto (h : Tidy limits s) (hidle : (s.pc i).isIdle = true) {p : Pc}
    (hp : PcOk limits p) (hheld : ∀ W : Weight, W.ofPc p = 0) : Calm limits i s (s.goto i p) :=
  ⟨h.goto i hp, fun W => held_goto_idle W hidle (hheld W), rfl, rfl, rfl,
    fun _ hj => Function.update_of_ne hj _ _, (Calm.refl (i := i) h).last⟩

theorem Calm.hand_over (h : Tidy limits s) (hidle : (s.pc i).isIdle = true) {id : ℕ}
    {c c' : Charge} (hc : s.charges id = some c) (hbytes : c'.bytes = c.bytes)
    (hok : ChargeOk c') (last : Outcome) :
    Calm limits i s ((s.setCharge id (some c')).goto i (.idle last)) := by
  have hid : id < s.next := h.fresh id c hc
  have htidy : Tidy limits (s.setCharge id (some c')) :=
    h.setCharge hid fun d hd => by
      obtain rfl := Option.mem_some.mp hd
      exact hok
  refine ⟨htidy.goto i trivial, fun W => held_hand_over W hidle hid hc hbytes last, rfl, rfl, rfl,
    fun _ hj => Function.update_of_ne hj _ _, fun k d hd hnone => ?_⟩
  by_cases hk : k = id
  · simp [Store.goto, Store.setCharge, hk] at hnone
  · simp [Store.goto, Store.setCharge, Function.update_of_ne hk, hd] at hnone

/-- Only the last owner lets the destructor run. -/
theorem Calm.destroy (h : Tidy limits s) (hidle : (s.pc i).isIdle = true) {id : ℕ} {c : Charge}
    (hc : s.charges id = some c) (hlast : c.owners.length = 1) (last : Outcome) :
    Calm limits i s (s.destroy i id c last) := by
  have hid : id < s.next := h.fresh id c hc
  have htidy : Tidy limits (s.setCharge id none) := h.setCharge hid (by simp)
  refine ⟨htidy.goto i trivial, fun W => held_destroy W hidle hid hc last, rfl, rfl, rfl,
    fun _ hj => Function.update_of_ne hj _ _, fun k d hd hnone => ?_⟩
  by_cases hk : k = id
  · subst hk
    obtain rfl : c = d := Option.some.inj (hc.symm.trans hd)
    exact hlast
  · simp [Store.destroy, Store.goto, Store.setCharge, Function.update_of_ne hk, hd] at hnone

theorem prepare_calm (h : Tidy limits s) (hidle : (s.pc i).isIdle = true) (len size : ℕ) :
    Calm limits i s (s.prepare limits i len size) := by
  unfold Store.prepare
  split
  · exact .goto h hidle trivial fun _ => rfl
  · exact .goto h hidle trivial fun _ => rfl

theorem allocate_calm (h : Tidy limits s) (hidle : (s.pc i).isIdle = true) (id : ℕ)
    (capacity : Option ℕ) : Calm limits i s (s.allocate limits i id capacity) := by
  unfold Store.allocate
  cases hc : s.charges id with
  | none => exact .refl h
  | some c =>
    have hok := h.charges id c hc
    simp only
    split
    · next hprepared =>
      have hlast := hok.unique (Or.inl hprepared)
      cases capacity with
      | none => exact .destroy h hidle hc hlast _
      | some n =>
        simp only
        split
        · exact .destroy h hidle hc hlast _
        · split
          · exact .destroy h hidle hc hlast _
          · have hnew : ChargeOk { c with holder := .owned } :=
              ⟨hok.owners, fun _ => hlast, by simp, hok.inside⟩
            exact .hand_over h hidle hc (by rfl) hnew _
    · exact .refl h

theorem freeze_calm (h : Tidy limits s) (hidle : (s.pc i).isIdle = true) (id : ℕ) :
    Calm limits i s (s.freeze i id) := by
  unfold Store.freeze
  cases hc : s.charges id with
  | none => exact .refl h
  | some c =>
    simp only
    split
    · have hnew : ChargeOk { c with holder := .shared 1, owners := [⟨0, c.len⟩] } :=
        ⟨List.cons_ne_nil _ _, fun _ => rfl, fun n hn => (Holder.shared.inj hn).symm, by simp⟩
      exact .hand_over h hidle hc (by rfl) hnew _
    · exact .refl h

/-- One owner more, with a view inside the allocation. -/
theorem ChargeOk.share {c : Charge} (hok : ChargeOk c) {strong : ℕ}
    (hshared : c.holder = .shared strong) {v : View} (hv : v.start ≤ v.stop ∧ v.stop ≤ c.len) :
    ChargeOk { c with holder := .shared (strong + 1), owners := c.owners ++ [v] } where
  owners := by simp
  unique := by simp
  counted := fun n hn => by
    obtain rfl := Holder.shared.inj hn
    simp [hok.counted strong hshared]
  inside := fun u hu => by
    rcases List.mem_append.mp hu with hu | hu
    · exact hok.inside u hu
    · obtain rfl := List.mem_singleton.mp hu
      exact hv

theorem clone_calm (h : Tidy limits s) (hidle : (s.pc i).isIdle = true) (id owner : ℕ) :
    Calm limits i s (s.clone i id owner) := by
  unfold Store.clone
  cases hc : s.charges id with
  | none => exact .refl h
  | some c =>
    have hok := h.charges id c hc
    simp only
    split
    · next strong v hshared hv =>
      exact .hand_over h hidle hc (by rfl)
        (hok.share hshared (hok.inside v (List.mem_of_getElem? hv))) _
    · exact .refl h

theorem slice_calm (h : Tidy limits s) (hidle : (s.pc i).isIdle = true)
    (id owner start stop : ℕ) : Calm limits i s (s.slice i id owner start stop) := by
  unfold Store.slice
  cases hc : s.charges id with
  | none => exact .refl h
  | some c =>
    have hok := h.charges id c hc
    simp only
    split
    · next strong v hshared hv =>
      have hin := hok.inside v (List.mem_of_getElem? hv)
      split
      · exact .goto h hidle trivial fun _ => rfl
      · next hrange =>
        refine .hand_over h hidle hc (by rfl) (hok.share hshared ⟨?_, ?_⟩) _
        · show v.start + start ≤ v.start + stop
          omega
        · show v.start + stop ≤ c.len
          omega
    · exact .refl h

theorem drop_calm (h : Tidy limits s) (hidle : (s.pc i).isIdle = true) (id owner : ℕ) :
    Calm limits i s (s.drop i id owner) := by
  unfold Store.drop
  cases hc : s.charges id with
  | none => exact .refl h
  | some c =>
    have hok := h.charges id c hc
    simp only
    split
    · next howner =>
      split
      · next strong hshared =>
        split
        · next hone => exact .destroy h hidle hc (by rw [← hok.counted strong hshared, hone]) _
        · next hlast =>
          -- Not the last owner: the others are those that stay.
          have hcount := hok.counted strong hshared
          refine .hand_over h hidle hc (by rfl) ⟨?_, by simp, ?_, ?_⟩ _
          · intro hnil
            have := congrArg List.length hnil
            simp only [List.length_eraseIdx_of_lt howner, List.length_nil] at this
            omega
          · intro n hn
            obtain rfl := Holder.shared.inj hn
            rw [List.length_eraseIdx_of_lt howner]
            omega
          · exact fun v hv => hok.inside v (List.mem_of_mem_eraseIdx hv)
      · next hunique =>
        have hlast : c.owners.length = 1 := hok.unique (by
          cases hholder : c.holder with
          | prepared => exact Or.inl rfl
          | owned => exact Or.inr rfl
          | shared strong => exact absurd hholder (hunique strong))
        exact .destroy h hidle hc hlast _
    · exact .refl h

end Calm

/-! ### One atomic step -/

/-- The invariant of a run. -/
structure Sound [Fintype ι] (limits : Limits) (s : Store ι) : Prop extends Tidy limits s where
  objects : s.objects = held Weight.objects s
  bytes : s.bytes = held Weight.bytes s
  objects_le : s.objects ≤ limits.maxObjects
  bytes_le : s.bytes ≤ limits.maxBytes

theorem fetchSub_of_le {bits counter amount : ℕ} (h : amount ≤ counter) (hlt : counter < 2 ^ bits) :
    Store.fetchSub bits counter amount + amount = counter := by
  have hsub : counter + 2 ^ bits - amount = counter - amount + 2 ^ bits := by omega
  rw [Store.fetchSub, hsub, Nat.add_mod_right, Nat.mod_eq_of_lt (by omega)]
  omega

section Step

variable [Fintype ι] {limits : Limits} {s : Store ι} {i : ι}

/-- A thread's own share is part of what is held. -/
theorem ofPc_le_held (W : Weight) (s : Store ι) (i : ι) : W.ofPc (s.pc i) ≤ held W s :=
  (Finset.single_le_sum (fun j _ => Nat.zero_le (W.ofPc (s.pc j))) (Finset.mem_univ i)).trans
    (Nat.le_add_left _ _)

/-- What one step does to what is held and to the counters. -/
structure Balanced (s t : Store ι) (e : Event) : Prop where
  held : ∀ W : Weight, held W t + W.loss e = held W s + W.gain e
  objects : t.objects + Weight.objects.loss e = s.objects + Weight.objects.gain e
  bytes : t.bytes + Weight.bytes.loss e = s.bytes + Weight.bytes.gain e
  next : (∃ b, e = .tookBytes s.next b ∧ t.next = s.next + 1) ∨
    (∀ id b, e ≠ .tookBytes id b) ∧ t.next = s.next

theorem Calm.balanced {t : Store ι} (h : Calm limits i s t) : Balanced s t .quiet :=
  ⟨fun W => h.held W, h.objects, h.bytes, Or.inr ⟨fun _ _ => Event.noConfusion, h.next⟩⟩

/-- The object that a thread gives back is still in the counter, which does not wrap. -/
theorem Sound.fetchSub_objects (h : Sound limits s) (hpc : Weight.objects.ofPc (s.pc i) = 1) :
    Store.fetchSub limits.bits s.objects 1 + 1 = s.objects := by
  have hle := ofPc_le_held Weight.objects s i
  rw [← h.objects, hpc] at hle
  exact fetchSub_of_le hle (Nat.lt_of_le_of_lt h.objects_le limits.maxObjects_lt)

/-- The bytes that a thread releases are still in the counter, which does not wrap. -/
theorem Sound.fetchSub_bytes (h : Sound limits s) {id bytes : ℕ} {last : Outcome}
    (hpc : s.pc i = .releaseBytes id bytes last) :
    Store.fetchSub limits.bits s.bytes bytes + bytes = s.bytes := by
  have hle := ofPc_le_held Weight.bytes s i
  rw [← h.bytes, hpc] at hle
  exact fetchSub_of_le hle (Nat.lt_of_le_of_lt h.bytes_le limits.maxBytes_lt)

variable [DecidableEq ι]

/-- A step that moves no counter goes to a point that holds as much. -/
theorem Balanced.goto (s : Store ι) (i : ι) {p : Pc}
    (hp : ∀ W : Weight, W.ofPc p = W.ofPc (s.pc i)) : Balanced s (s.goto i p) .quiet :=
  ⟨fun W => by
    have h := held_goto W s i p
    rw [hp W] at h
    exact Nat.add_right_cancel h, rfl, rfl, Or.inr ⟨fun _ _ => Event.noConfusion, rfl⟩⟩

theorem ofPc_tryObjects (W : Weight) (limits : Limits) (req : Request) (current : ℕ) :
    W.ofPc (Store.tryObjects limits req current) = 0 := by
  unfold Store.tryObjects
  split <;> rfl

theorem ofPc_tryBytes (W : Weight) (limits : Limits) (req : Request) (current : ℕ) :
    W.ofPc (Store.tryBytes limits req current) = W.admitting := by
  unfold Store.tryBytes
  split <;> rfl

theorem advance_balanced (h : Sound limits s) (i : ι) (spurious : Bool) :
    Balanced s (s.advance limits i spurious).2 (s.advance limits i spurious).1 := by
  -- Only the swap of the byte counter numbers a charge.
  have hsame : ∀ e : Event, (∀ id b, e ≠ .tookBytes id b) →
      (∃ b, e = .tookBytes s.next b ∧ s.next = s.next + 1) ∨
        (∀ id b, e ≠ .tookBytes id b) ∧ s.next = s.next := fun _ he => Or.inr ⟨he, rfl⟩
  unfold Store.advance
  cases hpc : s.pc i with
  | idle last => exact ⟨fun _ => rfl, rfl, rfl, hsame _ fun _ _ => Event.noConfusion⟩
  | loadObjects req =>
    exact .goto s i fun W => by rw [hpc, ofPc_tryObjects]; rfl
  | casObjects req current =>
    simp only
    split
    · next hswap =>
      refine ⟨fun W => ?_, ?_, rfl, hsame _ fun _ _ => Event.noConfusion⟩
      · have hheld := held_goto W { s with objects := current + 1 } i (.loadBytes req)
        rw [hpc] at hheld
        exact hheld
      · show current + 1 + 0 = s.objects + 1
        rw [hswap.1]
    · exact .goto s i fun W => by rw [hpc, ofPc_tryObjects]; rfl
  | loadBytes req =>
    exact .goto s i fun W => by rw [hpc, ofPc_tryBytes]; rfl
  | casBytes req current =>
    simp only
    split
    · next hswap =>
      refine ⟨fun W => ?_, rfl, ?_, Or.inl ⟨_, rfl, rfl⟩⟩
      · have hheld := held_grant W { s with bytes := current + req.bytes } i req
        rw [hpc] at hheld
        exact hheld
      · show current + req.bytes + 0 = s.bytes + req.bytes
        rw [hswap.1]
        rfl
    · exact .goto s i fun W => by rw [hpc, ofPc_tryBytes]; rfl
  | rollback req =>
    refine ⟨fun W => ?_, h.fetchSub_objects (by rw [hpc]; rfl), rfl,
      hsame _ fun _ _ => Event.noConfusion⟩
    have hheld := held_goto W
      { s with objects := Store.fetchSub limits.bits s.objects 1 } i
      (.idle (.refused (.bytes req.bytes limits.maxBytes)))
    rw [hpc] at hheld
    exact hheld
  | releaseBytes id bytes last =>
    refine ⟨fun W => ?_, rfl, h.fetchSub_bytes hpc, hsame _ fun _ _ => Event.noConfusion⟩
    have hheld := held_goto W
      { s with bytes := Store.fetchSub limits.bits s.bytes bytes } i (.releaseObject id last)
    rw [hpc] at hheld
    exact hheld
  | releaseObject id last =>
    refine ⟨fun W => ?_, h.fetchSub_objects (by rw [hpc]; rfl), rfl,
      hsame _ fun _ _ => Event.noConfusion⟩
    have hheld := held_goto W
      { s with objects := Store.fetchSub limits.bits s.objects 1 } i (.idle last)
    rw [hpc] at hheld
    exact hheld

/-- Taking a counter keeps it within its limit, which the thread has checked. -/
theorem advance_le (h : Sound limits s) (i : ι) (spurious : Bool) :
    (s.advance limits i spurious).2.objects ≤ limits.maxObjects ∧
      (s.advance limits i spurious).2.bytes ≤ limits.maxBytes := by
  have hpcs := h.pcs i
  have hobjects_le := h.objects_le
  have hbytes_le := h.bytes_le
  unfold Store.advance
  cases hpc : s.pc i with
  | idle last => exact ⟨hobjects_le, hbytes_le⟩
  | loadObjects req => exact ⟨hobjects_le, hbytes_le⟩
  | casObjects req current =>
    rw [hpc] at hpcs
    simp only
    split
    · exact ⟨hpcs, hbytes_le⟩
    · exact ⟨hobjects_le, hbytes_le⟩
  | loadBytes req => exact ⟨hobjects_le, hbytes_le⟩
  | casBytes req current =>
    rw [hpc] at hpcs
    simp only
    split
    · exact ⟨hobjects_le, hpcs⟩
    · exact ⟨hobjects_le, hbytes_le⟩
  | rollback req =>
    have hsub := h.fetchSub_objects (i := i) (by rw [hpc]; rfl)
    exact ⟨show Store.fetchSub limits.bits s.objects 1 ≤ _ by omega, hbytes_le⟩
  | releaseBytes id bytes last =>
    have hsub := h.fetchSub_bytes hpc
    exact ⟨hobjects_le, show Store.fetchSub limits.bits s.bytes bytes ≤ _ by omega⟩
  | releaseObject id last =>
    have hsub := h.fetchSub_objects (i := i) (by rw [hpc]; rfl)
    exact ⟨show Store.fetchSub limits.bits s.objects 1 ≤ _ by omega, hbytes_le⟩

theorem start_calm (h : Tidy limits s) (hidle : (s.pc i).isIdle = true) (action : Action) :
    Calm limits i s (s.start limits i action) := by
  cases action with
  | prepare len size => exact prepare_calm h hidle len size
  | advance spurious => exact .refl h
  | allocate id capacity => exact allocate_calm h hidle id capacity
  | freeze id => exact freeze_calm h hidle id
  | clone id owner => exact clone_calm h hidle id owner
  | slice id owner start stop => exact slice_calm h hidle id owner start stop
  | drop id owner => exact drop_calm h hidle id owner

/-- An action is an atomic step, or it moves no counter. -/
theorem act_cases (h : Tidy limits s) (i : ι) (action : Action) :
    (∃ spurious, action = .advance spurious ∧
      s.act limits i action = s.advance limits i spurious) ∨
    (s.act limits i action).1 = .quiet ∧ Calm limits i s (s.act limits i action).2 := by
  cases action with
  | advance spurious => exact Or.inl ⟨spurious, rfl, rfl⟩
  | _ =>
    refine Or.inr ⟨rfl, ?_⟩
    simp only [Store.act]
    split
    · next hidle => exact start_calm h hidle _
    · exact .refl h

theorem act_balanced (h : Sound limits s) (i : ι) (action : Action) :
    Balanced s (s.act limits i action).2 (s.act limits i action).1 := by
  rcases act_cases h.toTidy i action with ⟨spurious, -, heq⟩ | ⟨hquiet, hcalm⟩
  · rw [heq]
    exact advance_balanced h i spurious
  · rw [hquiet]
    exact hcalm.balanced

/-- One step keeps the invariant. -/
theorem act_sound (h : Sound limits s) (i : ι) (action : Action) :
    Sound limits (s.act limits i action).2 := by
  have hbalanced := act_balanced h i action
  rcases act_cases h.toTidy i action with ⟨spurious, -, heq⟩ | ⟨-, hcalm⟩
  · rw [heq] at hbalanced ⊢
    have hle := advance_le h i spurious
    refine ⟨advance_tidy h.toTidy i spurious, ?_, ?_, hle.1, hle.2⟩
    · have hheld := hbalanced.held Weight.objects
      have hobjects := hbalanced.objects
      have := h.objects
      omega
    · have hheld := hbalanced.held Weight.bytes
      have hbytes := hbalanced.bytes
      have := h.bytes
      omega
  · exact ⟨hcalm.tidy, by rw [hcalm.objects, hcalm.held, h.objects],
      by rw [hcalm.bytes, hcalm.held, h.bytes], by rw [hcalm.objects]; exact h.objects_le,
      by rw [hcalm.bytes]; exact h.bytes_le⟩

end Step

/-! ### What a step leaves alone -/

section Frame

variable [DecidableEq ι] {limits : Limits}

/-- An atomic step takes no charge out of the table and moves no other thread. -/
theorem advance_frame {s : Store ι} (h : Tidy limits s) (i : ι) (spurious : Bool) :
    (∀ id c, s.charges id = some c → (s.advance limits i spurious).2.charges id = some c) ∧
      ∀ j, j ≠ i → (s.advance limits i spurious).2.pc j = s.pc j := by
  unfold Store.advance
  cases s.pc i with
  | casBytes req current =>
    simp only
    split
    · refine ⟨fun id c hc => ?_, fun j hj => Function.update_of_ne hj _ _⟩
      have hid := h.fresh id c hc
      simpa [Store.grant, Store.goto, Store.setCharge, Function.update_of_ne (Nat.ne_of_lt hid)]
        using hc
    · exact ⟨fun _ _ hc => hc, fun j hj => Function.update_of_ne hj _ _⟩
  | casObjects req current =>
    simp only
    split
    · exact ⟨fun _ _ hc => hc, fun j hj => Function.update_of_ne hj _ _⟩
    · exact ⟨fun _ _ hc => hc, fun j hj => Function.update_of_ne hj _ _⟩
  | idle last => exact ⟨fun _ _ hc => hc, fun _ _ => rfl⟩
  | _ => exact ⟨fun _ _ hc => hc, fun j hj => Function.update_of_ne hj _ _⟩

variable [Fintype ι]

/-- A charge loses its last owner when it goes. -/
theorem last_owner {s : Store ι} (h : Tidy limits s) (i : ι) (action : Action) {id : ℕ}
    {c : Charge} (hc : s.charges id = some c)
    (hgone : (s.act limits i action).2.charges id = none) : c.owners.length = 1 := by
  rcases act_cases h i action with ⟨spurious, -, heq⟩ | ⟨-, hcalm⟩
  · rw [heq, (advance_frame h i spurious).1 id c hc] at hgone
    cases hgone
  · exact hcalm.last id c hc hgone

theorem act_others {s : Store ι} (h : Tidy limits s) {i j : ι} (hj : j ≠ i) (action : Action) :
    (s.act limits i action).2.pc j = s.pc j := by
  rcases act_cases h i action with ⟨spurious, -, heq⟩ | ⟨-, hcalm⟩
  · rw [heq]
    exact (advance_frame h i spurious).2 j hj
  · exact hcalm.others j hj

end Frame

end Zencodec.Storage
