/-
The accounting of a budget over whole runs.

* `run_sound` — every reachable state is sound;
* `run_byteCharge`, `run_objectCharge` — an admitted charge is held in one place, or has
  been released once;
* `reserve_run` — between its start and its end, a reservation takes and gives back what its
  outcome says, whatever the other threads do;
* `run_accounts` — the accounting of every schedule.
-/
import Zencodec.Lib.Runs
import Zencodec.Storage.Accounting

open Runs
open scoped BigOperators

namespace Zencodec.Storage

variable {ι : Type}

/-! ### With no operation in flight -/

section Rest

variable [Fintype ι] {limits : Limits}

/-- With no operation in flight only the charges hold anything. -/
theorem held_of_idle (W : Weight) {s : Store ι} (h : ∀ i, (s.pc i).isIdle = true) :
    held W s = ∑ id ∈ Finset.range s.next, W.ofCharge id (s.charges id) := by
  have hpcs : ∑ i, W.ofPc (s.pc i) = 0 :=
    Finset.sum_eq_zero fun i _ => ofPc_of_isIdle W (h i)
  rw [held, hpcs, Nat.add_zero]

theorem ofCharge_le_held (W : Weight) {s : Store ι} (h : Tidy limits s) {id : ℕ} {c : Charge}
    (hc : s.charges id = some c) : W.charge id c.bytes ≤ held W s := by
  have hle := Finset.single_le_sum (f := fun k => W.ofCharge k (s.charges k))
    (fun _ _ => Nat.zero_le _) (Finset.mem_range.mpr (h.fresh id c hc))
  simp only [hc, Weight.ofCharge, Option.elim_some] at hle
  exact hle.trans (Nat.le_add_right _ _)

/-- The bytes charged to `id`. -/
def chargedBytes (s : Store ι) (id : ℕ) : ℕ := ((s.charges id).map Charge.bytes).getD 0

/-- The charges alive. -/
def live (s : Store ι) : Finset ℕ := (Finset.range s.next).filter fun id => (s.charges id).isSome

theorem bytes_of_idle {s : Store ι} (h : Sound limits s) (hidle : ∀ i, (s.pc i).isIdle = true) :
    s.bytes = ∑ id ∈ live s, chargedBytes s id := by
  rw [h.bytes, held_of_idle _ hidle, live, Finset.sum_filter]
  refine Finset.sum_congr rfl fun id _ => ?_
  cases hc : s.charges id <;> simp [Weight.ofCharge, Weight.bytes, chargedBytes, hc]

theorem objects_of_idle {s : Store ι} (h : Sound limits s)
    (hidle : ∀ i, (s.pc i).isIdle = true) : s.objects = (live s).card := by
  rw [h.objects, held_of_idle _ hidle, live, Finset.card_eq_sum_ones, Finset.sum_filter]
  refine Finset.sum_congr rfl fun id _ => ?_
  cases hc : s.charges id <;> simp [Weight.ofCharge, Weight.objects]

/-- Without an owner and with no operation in flight, nothing of a charge is left. -/
theorem held_of_gone {W : Weight} {s : Store ι} (hidle : ∀ i, (s.pc i).isIdle = true) {id : ℕ}
    (hW : ∀ k b, k ≠ id → W.charge k b = 0) (hc : s.charges id = none) : held W s = 0 := by
  rw [held_of_idle W hidle]
  refine Finset.sum_eq_zero fun k _ => ?_
  by_cases hk : k = id
  · simp [hk, hc, Weight.ofCharge]
  · cases hck : s.charges k <;> simp [Weight.ofCharge, hW k _ hk]

end Rest

/-! ### One reservation -/

section Reservation

variable [DecidableEq ι]

/-- What a step adds to the object counter. -/
def Event.objectDelta : Event → ℤ
  | .tookObject => 1
  | .gaveBackObject => -1
  | .releasedObject _ => -1
  | _ => 0

/-- What a step adds to the byte counter. -/
def Event.byteDelta : Event → ℤ
  | .tookBytes _ bytes => bytes
  | .releasedBytes _ bytes => -bytes
  | _ => 0

/-- What a reservation has taken so far, objects and bytes. -/
def Pc.taken : Pc → ℤ × ℤ
  | .loadBytes _ | .casBytes _ _ | .rollback _ => (1, 0)
  | .idle (.granted _ bytes) => (1, bytes)
  | _ => (0, 0)

def Pc.isRelease : Pc → Bool
  | .releaseBytes .. | .releaseObject .. => true
  | _ => false

/-- The deltas of thread `i` in a run. -/
def deltas (i : ι) (outs : List (ι × Event)) : ℤ × ℤ :=
  (outs.map fun o => if o.1 = i then (o.2.objectDelta, o.2.byteDelta) else 0).sum

theorem tryObjects_taken (limits : Limits) (req : Request) (current : ℕ) :
    (Store.tryObjects limits req current).isRelease = false ∧
      (Store.tryObjects limits req current).taken = (0, 0) := by
  unfold Store.tryObjects
  split <;> exact ⟨rfl, rfl⟩

theorem tryBytes_taken (limits : Limits) (req : Request) (current : ℕ) :
    (Store.tryBytes limits req current).isRelease = false ∧
      (Store.tryBytes limits req current).taken = (1, 0) := by
  unfold Store.tryBytes
  split <;> exact ⟨rfl, rfl⟩

/-- An atomic step of a reservation takes or gives back what its event says. -/
theorem advance_taken (limits : Limits) {s : Store ι} {i : ι} (hpc : (s.pc i).isRelease = false)
    (spurious : Bool) :
    ((s.advance limits i spurious).2.pc i).isRelease = false ∧
      ((s.advance limits i spurious).2.pc i).taken = (s.pc i).taken
        + ((s.advance limits i spurious).1.objectDelta,
          (s.advance limits i spurious).1.byteDelta) := by
  unfold Store.advance
  cases h : s.pc i with
  | idle last => simp [h, Pc.isRelease, Event.objectDelta, Event.byteDelta]
  | loadObjects req =>
    obtain ⟨hrelease, htaken⟩ := tryObjects_taken limits req s.objects
    simp only [Store.goto, Function.update_self]
    exact ⟨hrelease, htaken⟩
  | casObjects req current =>
    simp only
    split
    · simp [Store.goto, Pc.isRelease, Pc.taken, Event.objectDelta, Event.byteDelta]
    · obtain ⟨hrelease, htaken⟩ := tryObjects_taken limits req s.objects
      simp only [Store.goto, Function.update_self]
      exact ⟨hrelease, htaken⟩
  | loadBytes req =>
    obtain ⟨hrelease, htaken⟩ := tryBytes_taken limits req s.bytes
    simp only [Store.goto, Function.update_self]
    exact ⟨hrelease, htaken⟩
  | casBytes req current =>
    simp only
    split
    · simp [Store.grant, Store.goto, Pc.isRelease, Pc.taken, Event.objectDelta, Event.byteDelta]
    · obtain ⟨hrelease, htaken⟩ := tryBytes_taken limits req s.bytes
      simp only [Store.goto, Function.update_self]
      exact ⟨hrelease, htaken⟩
  | rollback req =>
    simp [Store.goto, Pc.isRelease, Pc.taken, Event.objectDelta, Event.byteDelta]
  | releaseBytes id bytes last =>
    rw [h] at hpc
    cases hpc
  | releaseObject id last =>
    rw [h] at hpc
    cases hpc

end Reservation

/-! ### Runs -/

def Event.releasesBytes (id : ℕ) : Event → Bool
  | .releasedBytes k _ => k == id
  | _ => false

def Event.releasesObject (id : ℕ) : Event → Bool
  | .releasedObject k => k == id
  | _ => false

/-- One for a charge that has been admitted. -/
def numbered (next id : ℕ) : ℕ := if id < next then 1 else 0

theorem numbered_succ (next id : ℕ) :
    numbered (next + 1) id = numbered next id + if next = id then 1 else 0 := by
  unfold numbered
  split <;> split <;> split <;> omega

section Run

variable [Fintype ι] {limits : Limits}

theorem new_sound (limits : Limits) : Sound limits (Store.new ι) where
  fresh := fun _ _ h => by cases h
  charges := fun _ _ h => by cases h
  pcs := fun _ => trivial
  objects := by simp [held, Store.new, Weight.ofPc]
  bytes := by simp [held, Store.new, Weight.ofPc]
  objects_le := Nat.zero_le _
  bytes_le := Nat.zero_le _

variable [DecidableEq ι]

theorem preserved_sound : Preserved (step (ι := ι) limits) (fun _ => True) (Sound limits) :=
  fun _ a _ h => act_sound h a.1 a.2

theorem run_sound (sched : List (ι × Action)) :
    Sound limits (final (step limits) (Store.new ι) sched) :=
  final_of_preserved preserved_sound (fun _ _ => trivial) (new_sound limits)

/-- A step takes the charge `id` off the byte counter, or leaves it in as many places, one
more when it admits it. -/
theorem byteCharge_act {s : Store ι} (h : Sound limits s) (i : ι) (action : Action) (id : ℕ) :
    held (Weight.byteCharge id) (s.act limits i action).2
        + (if (s.act limits i action).1.releasesBytes id then 1 else 0)
        + numbered s.next id
      = held (Weight.byteCharge id) s + numbered (s.act limits i action).2.next id := by
  have hbalanced := act_balanced h i action
  have hheld := hbalanced.held (Weight.byteCharge id)
  rcases hbalanced.next with ⟨b, he, hnext⟩ | ⟨he, hnext⟩
  · rw [he] at hheld ⊢
    rw [hnext, numbered_succ]
    simp only [Weight.gain, Weight.loss, Event.releasesBytes, Bool.false_eq_true,
      if_false] at hheld ⊢
    simp only [Weight.byteCharge] at hheld ⊢
    omega
  · rw [hnext]
    cases hevent : (s.act limits i action).1 with
    | tookBytes k b => exact absurd hevent (he k b)
    | _ =>
      rw [hevent] at hheld
      simp only [Weight.gain, Weight.loss, Event.releasesBytes, beq_iff_eq, Bool.false_eq_true,
        if_false] at hheld ⊢
      simp only [Weight.byteCharge] at hheld ⊢
      omega

/-- The same for the object counter. -/
theorem objectCharge_act {s : Store ι} (h : Sound limits s) (i : ι) (action : Action) (id : ℕ) :
    held (Weight.objectCharge id) (s.act limits i action).2
        + (if (s.act limits i action).1.releasesObject id then 1 else 0)
        + numbered s.next id
      = held (Weight.objectCharge id) s
        + numbered (s.act limits i action).2.next id := by
  have hbalanced := act_balanced h i action
  have hheld := hbalanced.held (Weight.objectCharge id)
  rcases hbalanced.next with ⟨b, he, hnext⟩ | ⟨he, hnext⟩
  · rw [he] at hheld ⊢
    rw [hnext, numbered_succ]
    simp only [Weight.gain, Weight.loss, Event.releasesObject, Bool.false_eq_true,
      if_false] at hheld ⊢
    simp only [Weight.objectCharge] at hheld ⊢
    omega
  · rw [hnext]
    cases hevent : (s.act limits i action).1 with
    | tookBytes k b => exact absurd hevent (he k b)
    | _ =>
      rw [hevent] at hheld
      simp only [Weight.gain, Weight.loss, Event.releasesObject, beq_iff_eq, Bool.false_eq_true,
        if_false] at hheld ⊢
      simp only [Weight.objectCharge] at hheld ⊢
      omega

/-- Of a quantity that each step conserves in this way, a run conserves the total. -/
theorem run_conserves {W : Weight} {released : Event → Bool} {id : ℕ}
    (hact : ∀ {s : Store ι}, Sound limits s → ∀ i action,
      held W (s.act limits i action).2 + (if released (s.act limits i action).1 then 1 else 0)
          + numbered s.next id
        = held W s + numbered (s.act limits i action).2.next id)
    {s : Store ι} (h : Sound limits s) (sched : List (ι × Action)) :
    held W (final (step limits) s sched)
        + (outputs (step limits) s sched).countP (fun o => released o.2)
        + numbered s.next id
      = held W s + numbered (final (step limits) s sched).next id := by
  induction sched generalizing s with
  | nil => rfl
  | cons a sched ih =>
    have hstep := hact h a.1 a.2
    have hrest := ih (act_sound h a.1 a.2)
    have hcount : (outputs (step limits) s (a :: sched)).countP (fun o => released o.2)
        = (outputs (step limits) (s.act limits a.1 a.2).2 sched).countP (fun o => released o.2)
          + if released (s.act limits a.1 a.2).1 then 1 else 0 := List.countP_cons
    have hfinal : final (step limits) s (a :: sched)
        = final (step limits) (s.act limits a.1 a.2).2 sched := rfl
    rw [hcount, hfinal]
    omega

theorem run_byteCharge (sched : List (ι × Action)) (id : ℕ) :
    held (Weight.byteCharge id) (final (step limits) (Store.new ι) sched)
        + (outputs (step limits) (Store.new ι) sched).countP (fun o => o.2.releasesBytes id)
      = numbered (final (step limits) (Store.new ι) sched).next id := by
  have h := run_conserves (fun {s} hs i action => byteCharge_act hs i action id)
    (new_sound (ι := ι) limits) sched
  have hnew : held (Weight.byteCharge id) (Store.new ι) = 0 := by
    simp [held, Store.new, Weight.ofPc]
  rw [hnew, Nat.zero_add] at h
  exact h

theorem run_objectCharge (sched : List (ι × Action)) (id : ℕ) :
    held (Weight.objectCharge id) (final (step limits) (Store.new ι) sched)
        + (outputs (step limits) (Store.new ι) sched).countP (fun o => o.2.releasesObject id)
      = numbered (final (step limits) (Store.new ι) sched).next id := by
  have h := run_conserves (fun {s} hs i action => objectCharge_act hs i action id)
    (new_sound (ι := ι) limits) sched
  have hnew : held (Weight.objectCharge id) (Store.new ι) = 0 := by
    simp [held, Store.new, Weight.ofPc]
  rw [hnew, Nat.zero_add] at h
  exact h

/-- While thread `i` only takes atomic steps of a reservation, what it has taken grows by
its deltas; the steps of other threads do not count. -/
theorem reserve_run {s : Store ι} (h : Sound limits s) {i : ι}
    (hpc : (s.pc i).isRelease = false) {seg : List (ι × Action)}
    (hseg : ∀ a ∈ seg, a.1 = i → ∃ spurious, a.2 = .advance spurious) :
    ((final (step limits) s seg).pc i).taken
      = (s.pc i).taken + deltas i (outputs (step limits) s seg) := by
  induction seg generalizing s with
  | nil => simp [deltas]
  | cons a seg ih =>
    have hrest := fun hpc' => ih (act_sound h a.1 a.2) hpc'
      fun b hb => hseg b (List.mem_cons_of_mem a hb)
    obtain ⟨j, action⟩ := a
    have hdeltas : deltas i (outputs (step limits) s ((j, action) :: seg))
        = (if j = i then ((s.act limits j action).1.objectDelta,
            (s.act limits j action).1.byteDelta) else 0)
          + deltas i (outputs (step limits) (s.act limits j action).2 seg) := List.sum_cons
    rw [hdeltas]
    show ((final (step limits) (s.act limits j action).2 seg).pc i).taken = _
    by_cases hj : j = i
    · subst hj
      obtain ⟨spurious, haction⟩ := hseg (j, action) List.mem_cons_self rfl
      simp only at haction
      subst haction
      obtain ⟨hrelease, htaken⟩ := advance_taken limits hpc spurious
      rw [hrest hrelease, if_pos rfl, ← add_assoc]
      exact congrArg (· + _) htaken
    · have hsame := act_others h.toTidy (Ne.symm hj) action
      simp only at hrest
      rw [hrest (by rw [hsame]; exact hpc), hsame, if_neg hj, zero_add]

/-! ### The accounting of every schedule -/

/-- The accounting of one budget, for every schedule of every finite set of threads: the
limits hold after every step; with no operation in flight the counters are the sums over
the live charges; a charge with an owner has not been released, none is released twice, and
with no operation in flight a charge without owner has been released once; a charge goes
with its last owner, and an `Arc` counts its owners; and a reservation that is refused has
given back what it took, whatever the others did meanwhile. -/
theorem run_accounts (limits : Limits) (sched : List (ι × Action)) :
    let s := final (step limits) (Store.new ι) sched
    let outs := outputs (step limits) (Store.new ι) sched
    (s.bytes ≤ limits.maxBytes ∧ s.objects ≤ limits.maxObjects) ∧
    ((∀ i, (s.pc i).isIdle = true) →
      s.bytes = ∑ id ∈ live s, chargedBytes s id ∧ s.objects = (live s).card) ∧
    (∀ id,
      outs.countP (fun o => o.2.releasesBytes id) ≤ 1 ∧
      outs.countP (fun o => o.2.releasesObject id) ≤ 1 ∧
      (∀ c, s.charges id = some c →
        outs.countP (fun o => o.2.releasesBytes id) = 0 ∧
        outs.countP (fun o => o.2.releasesObject id) = 0 ∧ c.owners ≠ [] ∧
        ∀ strong, c.holder = .shared strong → strong = c.owners.length) ∧
      (s.charges id = none → id < s.next → (∀ i, (s.pc i).isIdle = true) →
        outs.countP (fun o => o.2.releasesBytes id) = 1 ∧
        outs.countP (fun o => o.2.releasesObject id) = 1)) ∧
    (∀ a id c, s.charges id = some c → (step limits s a).2.charges id = none →
      c.owners.length = 1) ∧
    (∀ i len size seg, (s.pc i).isIdle = true →
      (∀ a ∈ seg, a.1 = i → ∃ spurious, a.2 = .advance spurious) →
      let asked := (step limits s (i, .prepare len size)).2
      let ended := final (step limits) asked seg
      (∀ e, ended.pc i = .idle (.refused e) →
        deltas i (outputs (step limits) asked seg) = (0, 0)) ∧
      (∀ id bytes, ended.pc i = .idle (.granted id bytes) →
        deltas i (outputs (step limits) asked seg) = (1, (bytes : ℤ)))) := by
  intro s outs
  have hsound : Sound limits s := run_sound sched
  refine ⟨⟨hsound.bytes_le, hsound.objects_le⟩,
    fun hidle => ⟨bytes_of_idle hsound hidle, objects_of_idle hsound hidle⟩, fun id => ?_,
    fun a id c hc hgone => last_owner hsound.toTidy a.1 a.2 hc hgone,
    fun i len size seg hidle hseg => ?_⟩
  · have hbyte : held (Weight.byteCharge id) s + outs.countP (fun o => o.2.releasesBytes id)
        = numbered s.next id := run_byteCharge sched id
    have hobject : held (Weight.objectCharge id) s
        + outs.countP (fun o => o.2.releasesObject id) = numbered s.next id :=
      run_objectCharge sched id
    have hnumbered : numbered s.next id ≤ 1 := by
      unfold numbered
      split <;> omega
    refine ⟨by omega, by omega, fun c hc => ?_, fun hc hid hidle => ?_⟩
    · have hok := hsound.charges id c hc
      have hbyte' : 1 ≤ held (Weight.byteCharge id) s := by
        simpa [Weight.byteCharge] using ofCharge_le_held (Weight.byteCharge id) hsound.toTidy hc
      have hobject' : 1 ≤ held (Weight.objectCharge id) s := by
        simpa [Weight.objectCharge] using
          ofCharge_le_held (Weight.objectCharge id) hsound.toTidy hc
      exact ⟨by omega, by omega, hok.owners, hok.counted⟩
    · have hone : numbered s.next id = 1 := if_pos hid
      have hbyte' : held (Weight.byteCharge id) s = 0 :=
        held_of_gone hidle (fun k b hk => if_neg hk) hc
      have hobject' : held (Weight.objectCharge id) s = 0 :=
        held_of_gone hidle (fun k b hk => if_neg hk) hc
      exact ⟨by omega, by omega⟩
  · intro asked ended
    have hasked : Sound limits asked := act_sound hsound i (.prepare len size)
    have hstart : (asked.pc i).isRelease = false ∧ (asked.pc i).taken = 0 := by
      simp only [asked, step, Store.act, Store.start, Store.prepare, hidle, if_true]
      split <;> simp [Store.goto, Pc.isRelease, Pc.taken]
    have hrun := reserve_run hasked hstart.1 hseg
    rw [hstart.2, zero_add] at hrun
    refine ⟨fun e he => hrun.symm.trans ?_, fun id bytes he => hrun.symm.trans ?_⟩
    · show (ended.pc i).taken = (0, 0)
      rw [he]
      rfl
    · show (ended.pc i).taken = (1, (bytes : ℤ))
      rw [he]
      rfl

end Run

end Zencodec.Storage
