/-
Durations on the clock of a format.

`TimingQuantizer` rounds the time since the start, not each duration: it keeps the part of a tick
that is still owed as an exact fraction of 128 bits. `AtPhase` says what it keeps after durations
of some total, `spec_quantize` what one duration gives, and `quantize_run` that over any run
nothing drifts.
-/
import Zencodec.Lib.Act
import Zencodec.Lib.Mixed
import Zencodec.Lib.Runs
import Zencodec.Time.Rescale

open Zencodec

namespace Zencodec.Time

/-! ### Checked operations on `u128` -/

def checkedAdd128 (a b : ℕ) : Option ℕ := if a + b < 2 ^ 128 then some (a + b) else none

def checkedMul128 (a b : ℕ) : Option ℕ := if a * b < 2 ^ 128 then some (a * b) else none

def checkedSub (a b : ℕ) : Option ℕ := if b ≤ a then some (a - b) else none

/-- `u64::try_from` -/
def toU64 (n : ℕ) : Option {n : ℕ // n < 2 ^ 64} := if h : n < 2 ^ 64 then some ⟨n, h⟩ else none

/-! ### The quantizer -/

structure TimingQuantizer where
  /-- In ticks per second. -/
  clock : ℕ
  maxTicks : ℕ
  phaseNum : ℕ
  phaseDen : ℕ
  roundedUp : Bool
  clock_pos : 0 < clock
  clock_lt : clock < 2 ^ 32

namespace TimingQuantizer

def new (clock maxTicks : ℕ) (hc : clock < 2 ^ 32) : Except TimingError TimingQuantizer :=
  if h : clock = 0 then .error .zeroDenominator
  else .ok ⟨clock, maxTicks, 0, 1, false, Nat.pos_of_ne_zero h, hc⟩

/-- A computation of the quantizer, which may panic. -/
abbrev Quantizing := Act TimingQuantizer (Abort TimingError)

/-- An operation that panics where it has no result. -/
def orPanic {α : Type} (x : Option α) : Quantizing α := Act.getOr x .panicked

def orOverflow {α : Type} (x : Option α) : Quantizing α := Act.getOr x (.refused .overflow)

/-- The sum of two fractions below one, with a common denominator: the carry and the rest. -/
def addFractions (o : Overflow) (sumDen left right : ℕ) : Option (ℕ × ℕ) := do
  let room ← o.sub (2 ^ 128) sumDen right
  if room ≤ left then
    let remainder ← o.sub (2 ^ 128) left room
    some (1, remainder)
  else
    let remainder ← u128 o (left + right)
    some (0, remainder)

/-- The ticks from one rounded time to the next, if they fit. -/
def ticksBetween (maxTicks whole carry : ℕ) (up wasUp : Bool) : Option {n : ℕ // n < 2 ^ 64} := do
  let n ← checkedAdd128 whole carry
  let n ← checkedAdd128 n up.toNat
  let n ← checkedSub n wasUp.toNat
  let ticks ← toU64 n
  if ticks ≤ maxTicks then some ticks else none

def quantize (o : Overflow) (duration : FrameDuration) : Quantizing FrameDuration := do
  let self ← Act.get
  let scaled ← orPanic (u128 o (duration.numerator * self.clock))
  let whole := scaled / duration.denominator
  let frac := scaled % duration.denominator
  let reduce := gcdLoop frac duration.denominator
  let frac := frac / reduce
  let den := duration.denominator / reduce
  let common := gcdLoop self.phaseDen den
  let leftScale := den / common
  let rightScale := self.phaseDen / common
  let sumDen ← orOverflow (checkedMul128 self.phaseDen leftScale)
  let left ← orOverflow (checkedMul128 self.phaseNum leftScale)
  let right ← orOverflow (checkedMul128 frac rightScale)
  let sum ← orPanic (addFractions o sumDen left right)
  let carry := sum.1
  let remainder := sum.2
  let rest ← orPanic (o.sub (2 ^ 128) sumDen remainder)
  let roundedUp := decide (rest ≤ remainder)
  let ticks ← orOverflow (ticksBetween self.maxTicks whole carry roundedUp self.roundedUp)
  let result ← Act.mapError .refused
    (Act.lift (FrameDuration.new ticks self.clock ticks.2 self.clock_lt))
  let reduce := gcdLoop remainder sumDen
  Act.modify fun self =>
    { self with
      phaseNum := remainder / reduce
      phaseDen := sumDen / reduce
      roundedUp := roundedUp }
  return result

/-! ### What it keeps -/

/-- The quantizer after durations of `x` ticks in all. -/
structure AtPhase (q : TimingQuantizer) (x : ℚ) : Prop where
  phase : ∃ whole, IsMixed x whole q.phaseNum q.phaseDen
  den_lt : q.phaseDen < 2 ^ 128
  roundedUp : q.roundedUp = decide (q.phaseDen ≤ q.phaseNum * 2)

/-- The ticks from one rounded time to another, `y` ticks later. -/
def ticks (x y : ℚ) : ℤ := ⌊x + y + 1 / 2⌋ - ⌊x + 1 / 2⌋

/-- What a quantizer can compute: the common denominator has 128 bits, the ticks 64, and they
are within the limit. -/
structure Representable (maxTicks : ℕ) (x y : ℚ) : Prop where
  den_lt : Nat.lcm x.den y.den < 2 ^ 128
  ticks_lt : ticks x y < 2 ^ 64
  ticks_le : ticks x y ≤ maxTicks

theorem ticks_add (x y z : ℚ) : ticks x (y + z) = ticks x y + ticks (x + y) z := by
  rw [ticks, ticks, ticks, ← add_assoc x y z]
  ring

theorem atPhase_new {clock maxTicks : ℕ} {hc : clock < 2 ^ 32} {q : TimingQuantizer}
    (hq : new clock maxTicks hc = .ok q) :
    AtPhase q 0 ∧ q.clock = clock ∧ q.maxTicks = maxTicks := by
  unfold new at hq
  split at hq
  · cases hq
  · obtain rfl := Except.ok.inj hq
    exact ⟨⟨⟨0, isMixed_zero⟩, by norm_num, rfl⟩, rfl, rfl⟩

/-! ### The arithmetic -/

theorem addFractions_eq (o : Overflow) {sumDen left right : ℕ} (hleft : left < sumDen)
    (hright : right < sumDen) (hden : sumDen < 2 ^ 128) :
    addFractions o sumDen left right =
      some ((left + right) / sumDen, (left + right) % sumDen) := by
  have hpos : 0 < sumDen := Nat.zero_lt_of_lt hleft
  rw [addFractions, o.sub_of_le hright.le]
  simp only [Option.bind_eq_bind, Option.bind_some]
  split
  · next hge =>
    have htotal : left + right = (left - (sumDen - right)) + sumDen * 1 := by omega
    have hrest : left - (sumDen - right) < sumDen := by omega
    rw [o.sub_of_le hge, Option.bind_some, htotal, Nat.add_mul_div_left _ _ hpos,
      Nat.div_eq_of_lt hrest, Nat.add_mul_mod_self_left, Nat.mod_eq_of_lt hrest]
  · next hlt =>
    have hsum : left + right < sumDen := by omega
    rw [u128, o.nat_of_lt (hsum.trans hden), Option.bind_some, Nat.div_eq_of_lt hsum,
      Nat.mod_eq_of_lt hsum]

/-- Half a tick or more rounds up. -/
theorem half_iff {sumDen remainder : ℕ} : sumDen - remainder ≤ remainder ↔ sumDen ≤ remainder * 2 := by
  omega

theorem ticksBetween_eq {maxTicks whole carry n : ℕ} {up wasUp : Bool}
    (hwhole : whole + carry + up.toNat < 2 ^ 128) (hn : n + wasUp.toNat = whole + carry + up.toNat) :
    ticksBetween maxTicks whole carry up wasUp =
      if h : n < 2 ^ 64 ∧ n ≤ maxTicks then some ⟨n, h.1⟩ else none := by
  have hsub : checkedSub (whole + carry + up.toNat) wasUp.toNat = some n := by
    rw [checkedSub, if_pos (by omega)]
    exact congrArg some (by omega)
  rw [ticksBetween, checkedAdd128, if_pos (by omega)]
  simp only [Option.bind_eq_bind, Option.bind_some, checkedAdd128, if_pos hwhole, hsub]
  by_cases h64 : n < 2 ^ 64
  · rw [toU64, dif_pos h64, Option.bind_some]
    by_cases hmax : n ≤ maxTicks
    · rw [if_pos hmax, dif_pos ⟨h64, hmax⟩]
    · rw [if_neg hmax, dif_neg fun h => hmax h.2]
  · rw [toU64, dif_neg h64, Option.bind_none, dif_neg fun h => h64 h.1]

/-- A duration in ticks, as the code divides it. -/
theorem isMixed_duration (clock : ℕ) (d : FrameDuration) :
    let scaled := d.numerator * clock
    let g := Nat.gcd (scaled % d.denominator) d.denominator
    IsMixed (clock * d.seconds) (scaled / d.denominator) (scaled % d.denominator / g)
      (d.denominator / g) := by
  have hsec : (clock : ℚ) * d.seconds = ((d.numerator * clock : ℕ) : ℚ) / d.denominator := by
    rw [FrameDuration.seconds]
    push_cast
    ring
  rw [hsec]
  exact isMixed_div _ d.denominator_pos

theorem AtPhase.floor {q : TimingQuantizer} {x : ℚ} (h : AtPhase q x) {whole : ℕ}
    (hx : IsMixed x whole q.phaseNum q.phaseDen) :
    ⌊x + 1 / 2⌋ = (whole + q.roundedUp.toNat : ℕ) := by
  rw [hx.floor_add_half, h.roundedUp]

/-- What a duration of `y` ticks gives after `x` ticks. -/
structure Quantized (q : TimingQuantizer) (x y : ℚ) (r : FrameDuration) (q' : TimingQuantizer) :
    Prop where
  representable : Representable q.maxTicks x y
  ticks : r.seconds * q.clock = ticks x y
  phase : AtPhase q' (x + y)
  clock : q'.clock = q.clock
  maxTicks : q'.maxTicks = q.maxTicks

theorem spec_quantize (o : Overflow) {q : TimingQuantizer} {x : ℚ} (h : AtPhase q x)
    (d : FrameDuration) :
    Act.Spec (quantize o d) (Quantized q x (q.clock * d.seconds))
      (fun e q' => e = .refused .overflow ∧ ¬ Representable q.maxTicks x (q.clock * d.seconds) ∧ q' = q)
      q := by
  obtain ⟨whole, hx⟩ := h.phase
  have hy := isMixed_duration q.clock d
  have hscaled : u128 o (d.numerator * q.clock) = some (d.numerator * q.clock) :=
    o.nat_of_lt ((Nat.mul_lt_mul'' d.numerator_lt q.clock_lt).trans (by norm_num))
  have hwhole : d.numerator * q.clock / d.denominator < 2 ^ 64 * 2 ^ 32 :=
    (Nat.div_le_self _ _).trans_lt (Nat.mul_lt_mul'' d.numerator_lt q.clock_lt)
  simp only [quantize, Act.spec_bind, Act.spec_get, orPanic, orOverflow, hscaled,
    Act.spec_getOr_some, gcdLoop_eq]
  dsimp only at hy
  generalize d.numerator * q.clock / d.denominator = whole' at hy hwhole ⊢
  generalize d.numerator * q.clock % d.denominator / _ = frac at hy ⊢
  generalize d.denominator / _ = den at hy ⊢
  have hlcm : q.phaseDen * (den / Nat.gcd q.phaseDen den) =
      Nat.lcm x.den (q.clock * d.seconds).den := by
    rw [hx.den_eq, hy.den_eq, Nat.lcm, Nat.mul_div_assoc _ (Nat.gcd_dvd_right _ _)]
  by_cases hden : q.phaseDen * (den / Nat.gcd q.phaseDen den) < 2 ^ 128
  · obtain ⟨hleft, hright⟩ := hx.scaled_lt hy
    simp only [checkedMul128, if_pos hden, if_pos (hleft.trans hden), if_pos (hright.trans hden),
      Act.spec_getOr_some, addFractions_eq o hleft hright hden]
    have hsum := hx.add hy rfl rfl
    have hcarry := Nat.div_lt_of_lt_mul (show _ < _ * 2 by
      have htwice := Nat.add_lt_add hleft hright
      rwa [← Nat.mul_two] at htwice)
    generalize q.phaseDen * (den / Nat.gcd q.phaseDen den) = sumDen
      at hlcm hden hleft hsum hcarry ⊢
    generalize q.phaseNum * (den / Nat.gcd q.phaseDen den) +
      frac * (q.phaseDen / Nat.gcd q.phaseDen den) = total at hsum hcarry ⊢
    have hrem : total % sumDen < sumDen := Nat.mod_lt _ (Nat.zero_lt_of_lt hleft)
    simp only [o.sub_of_le hrem.le, Act.spec_getOr_some, half_iff]
    -- what is emitted is the difference of two rounded times
    have hbefore := h.floor hx
    have hhalf := Nat.half_div_gcd_iff (total % sumDen) (Nat.zero_lt_of_lt hleft)
    have hafter := hsum.floor_add_half
    rw [decide_eq_decide.mpr hhalf] at hafter
    have hmono : ⌊x + 1 / 2⌋ ≤ ⌊x + q.clock * d.seconds + 1 / 2⌋ :=
      Int.floor_le_floor (by linarith [hy.nonneg])
    obtain ⟨n, hn⟩ := Int.eq_ofNat_of_zero_le (sub_nonneg.mpr hmono)
    have hbalance : n + q.roundedUp.toNat =
        whole' + total / sumDen + (decide (sumDen ≤ total % sumDen * 2)).toNat := by
      omega
    have hbound : whole' + total / sumDen + (decide (sumDen ≤ total % sumDen * 2)).toNat <
        2 ^ 128 := by
      have hup := Bool.toNat_le (decide (sumDen ≤ total % sumDen * 2))
      omega
    rw [ticksBetween_eq hbound hbalance]
    by_cases hfit : n < 2 ^ 64 ∧ n ≤ q.maxTicks
    · obtain ⟨r, hr, hsec⟩ := FrameDuration.new_eq hfit.1 q.clock_lt q.clock_pos
      simp only [dif_pos hfit, Act.spec_getOr_some, hr, Act.spec_mapError, Act.spec_modify,
        Act.spec_pure]
      have hclock : (q.clock : ℚ) ≠ 0 := Nat.cast_ne_zero.mpr q.clock_pos.ne'
      refine
        { representable := ⟨hlcm ▸ hden, ?_, ?_⟩
          ticks := ?_
          phase := ⟨⟨_, hsum⟩, (Nat.div_le_self _ _).trans_lt hden, ?_⟩
          clock := rfl
          maxTicks := rfl }
      · rw [ticks, hn]
        exact_mod_cast hfit.1
      · rw [ticks, hn]
        exact_mod_cast hfit.2
      · rw [ticks, hn, hsec, div_mul_cancel₀ _ hclock, Int.cast_natCast]
      · exact (decide_eq_decide.mpr hhalf).symm
    · rw [dif_neg hfit, Act.spec_getOr_none]
      refine ⟨rfl, fun hrep => hfit ⟨?_, ?_⟩, rfl⟩
      · have hlt := hrep.ticks_lt
        rw [ticks, hn] at hlt
        exact_mod_cast hlt
      · have hle := hrep.ticks_le
        rw [ticks, hn] at hle
        exact_mod_cast hle
  · rw [checkedMul128, if_neg hden, Act.spec_getOr_none]
    exact ⟨rfl, fun hr => hden (hlcm ▸ hr.den_lt), rfl⟩

/-- A duration is taken, or refused without a trace. -/
theorem quantize_cases (o : Overflow) {q : TimingQuantizer} {x : ℚ} (h : AtPhase q x)
    (d : FrameDuration) :
    (∃ r q', quantize o d q = (.ok r, q') ∧ Quantized q x (q.clock * d.seconds) r q') ∨
    quantize o d q = (.error (.refused .overflow), q) ∧
      ¬ Representable q.maxTicks x (q.clock * d.seconds) := by
  have hspec := spec_quantize o h d
  unfold Act.Spec at hspec
  generalize quantize o d q = out at hspec ⊢
  obtain ⟨r, q'⟩ := out
  cases r with
  | ok r => exact .inl ⟨r, q', rfl, hspec⟩
  | error e =>
    obtain ⟨rfl, hrep, rfl⟩ := hspec
    exact .inr ⟨rfl, hrep⟩

/-! ### Runs -/

/-- The durations that are taken, each with what it is encoded as. -/
def accepted (o : Overflow) : TimingQuantizer → List FrameDuration →
    List (FrameDuration × FrameDuration)
  | _, [] => []
  | q, d :: ds =>
    match (quantize o d q).1 with
    | .ok r => (d, r) :: accepted o (quantize o d q).2 ds
    | .error _ => accepted o (quantize o d q).2 ds

/-- The quantizer after a list of durations. -/
def after (o : Overflow) (q : TimingQuantizer) (ds : List FrameDuration) : TimingQuantizer :=
  Runs.final (fun q d => quantize o d q) q ds

def totalSeconds (ds : List FrameDuration) : ℚ := (ds.map FrameDuration.seconds).sum

theorem totalSeconds_cons (d : FrameDuration) (ds : List FrameDuration) :
    totalSeconds (d :: ds) = d.seconds + totalSeconds ds := by
  rw [totalSeconds, List.map_cons, List.sum_cons, totalSeconds]

/-- What a run from `x` ticks on with the taken durations `l` ends with. -/
structure RunExact (o : Overflow) (q : TimingQuantizer) (x : ℚ) (ds : List FrameDuration)
    (l : List (FrameDuration × FrameDuration)) : Prop where
  phase : AtPhase (after o q ds) (x + q.clock * totalSeconds (l.map Prod.fst))
  clock : (after o q ds).clock = q.clock
  maxTicks : (after o q ds).maxTicks = q.maxTicks
  ticks : totalSeconds (l.map Prod.snd) * q.clock =
    ticks x (q.clock * totalSeconds (l.map Prod.fst))
  /-- The others left no trace. -/
  after_fst : after o q (l.map Prod.fst) = after o q ds
  accepted_fst : accepted o q (l.map Prod.fst) = l

theorem runExact_accepted (o : Overflow) {q : TimingQuantizer} {x : ℚ} (h : AtPhase q x)
    (ds : List FrameDuration) : RunExact o q x ds (accepted o q ds) := by
  induction ds generalizing q x with
  | nil =>
    refine ⟨?_, rfl, rfl, ?_, rfl, rfl⟩
    · simpa [accepted, totalSeconds, after] using h
    · simp [accepted, totalSeconds, TimingQuantizer.ticks]
  | cons d ds ih =>
    rcases quantize_cases o h d with ⟨r, q', hrun, hq⟩ | ⟨hrun, -⟩
    · have hrest := ih hq.phase
      have hafter : ∀ l, after o q (d :: l) = after o q' l := fun l => by
        simp only [after, Runs.final_cons, hrun]
      have haccepted : ∀ l, accepted o q (d :: l) = (d, r) :: accepted o q' l := fun l => by
        simp only [accepted, hrun]
      have hphase := hrest.phase
      have hticks := hrest.ticks
      rw [hq.clock] at hphase hticks
      rw [haccepted]
      constructor
      · rw [hafter, List.map_cons, totalSeconds_cons, mul_add, ← add_assoc]
        exact hphase
      · rw [hafter, hrest.clock, hq.clock]
      · rw [hafter, hrest.maxTicks, hq.maxTicks]
      · rw [List.map_cons, List.map_cons, totalSeconds_cons, totalSeconds_cons, add_mul, mul_add,
          ticks_add, hq.ticks, hticks, Int.cast_add]
      · rw [List.map_cons, hafter, hafter, hrest.after_fst]
      · rw [List.map_cons, haccepted, hrest.accepted_fst]
    · have hafter : ∀ l, after o q (d :: l) = after o q l := fun l => by
        simp only [after, Runs.final_cons, hrun]
      have haccepted : ∀ l, accepted o q (d :: l) = accepted o q l := fun l => by
        simp only [accepted, hrun]
      have hrest := ih h
      rw [haccepted]
      constructor
      · rw [hafter]
        exact hrest.phase
      · rw [hafter, hrest.clock]
      · rw [hafter, hrest.maxTicks]
      · exact hrest.ticks
      · rw [hafter, hrest.after_fst]
      · exact hrest.accepted_fst

/-- After every run the encoded durations make up the taken ones, rounded once; the next duration
fails only where its exact value or the sum cannot be computed, and leaves no trace then. -/
theorem quantize_run (o : Overflow) {clock maxTicks : ℕ} {hc : clock < 2 ^ 32}
    {q : TimingQuantizer} (hq : new clock maxTicks hc = .ok q) (ds : List FrameDuration) :
    totalSeconds ((accepted o q ds).map Prod.snd) * clock =
      ⌊clock * totalSeconds ((accepted o q ds).map Prod.fst) + 1 / 2⌋ ∧
    (∀ d r, (quantize o d (after o q ds)).1 = .ok r → r.seconds * clock =
      ticks (clock * totalSeconds ((accepted o q ds).map Prod.fst)) (clock * d.seconds)) ∧
    (∀ d e, (quantize o d (after o q ds)).1 = .error e →
      e = .refused .overflow ∧ (quantize o d (after o q ds)).2 = after o q ds) ∧
    (∀ d, (∃ r, (quantize o d (after o q ds)).1 = .ok r) ↔ Representable maxTicks
      (clock * totalSeconds ((accepted o q ds).map Prod.fst)) (clock * d.seconds)) ∧
    after o q ((accepted o q ds).map Prod.fst) = after o q ds ∧
    accepted o q ((accepted o q ds).map Prod.fst) = accepted o q ds := by
  obtain ⟨hstart, rfl, rfl⟩ := atPhase_new hq
  have hrun := runExact_accepted o hstart ds
  have hphase := hrun.phase
  rw [zero_add] at hphase
  have hnext := fun d => quantize_cases o hphase d
  simp only [hrun.clock, hrun.maxTicks] at hnext
  refine ⟨?_, fun d r hr => ?_, fun d e he => ?_, fun d => ?_, hrun.after_fst,
    hrun.accepted_fst⟩
  · rw [hrun.ticks, ticks, zero_add, zero_add]
    norm_num
  · rcases hnext d with ⟨r', q', hout, hquant⟩ | ⟨hout, -⟩
    · rw [hout] at hr
      obtain rfl := Except.ok.inj hr
      rw [← hrun.clock, hquant.ticks, hrun.clock]
    · rw [hout] at hr
      cases hr
  · rcases hnext d with ⟨r', q', hout, -⟩ | ⟨hout, -⟩
    · rw [hout] at he
      cases he
    · rw [hout] at he
      obtain rfl := Except.error.inj he
      exact ⟨rfl, by rw [hout]⟩
  · rcases hnext d with ⟨r', q', hout, hquant⟩ | ⟨hout, hrep⟩
    · exact iff_of_true ⟨r', by rw [hout]⟩ (hrun.maxTicks ▸ hquant.representable)
    · refine iff_of_false (fun ⟨r, hr⟩ => ?_) hrep
      rw [hout] at hr
      cases hr

theorem ten_lt_u32 : 10 < 2 ^ 32 := by decide

/-- Ten ticks per second, and at most a hundred in a frame. -/
def tenths : TimingQuantizer := ⟨10, 100, 0, 1, false, Nat.succ_pos 9, ten_lt_u32⟩

/-- A twentieth of a second. -/
def halfTick : FrameDuration :=
  ⟨1, 20, Nat.succ_pos 19, Nat.one_lt_two_pow (by decide), by decide, Nat.coprime_one_left 20⟩

/-- Of three durations of half a tick, the first and the third make up a tick. -/
theorem quantize_run_halves :
    (accepted .panics tenths [halfTick, halfTick, halfTick]).map (fun p => p.2.numerator) =
        [1, 0, 1] ∧
      totalSeconds ((accepted .panics tenths [halfTick, halfTick, halfTick]).map Prod.snd) *
          (10 : ℕ) =
        ⌊(10 : ℕ) * totalSeconds
          ((accepted .panics tenths [halfTick, halfTick, halfTick]).map Prod.fst) + 1 / 2⌋ := by
  have hnew : new 10 100 ten_lt_u32 = .ok tenths := rfl
  exact ⟨by decide +kernel, (quantize_run .panics hnew [halfTick, halfTick, halfTick]).1⟩

end TimingQuantizer

end Zencodec.Time
