/-
Whole runs of the row encoder.

Whatever the source, the control, the storage and the encoder do:

* `passes_of_run`: a run that succeeds has lent the rows of whole passes, each row once in every
  pass and in order, as many passes as declared, with the final pass marked, and no fill of it
  was refused;
* `sameRow_of_run`: a row that is lent again has the digest of the first time, and where the rows
  are borrowed or kept in memory it is the row itself;
* `held_of_run`: for a plan whose output belongs to the final pass, nothing is offered to the
  destination before a strip of that pass was lent;
* `run_is_bounded`: the rounds are bounded by the rows of the passes.

The last three hold of runs that fail, too.
-/
import Zencodec.RowEncode.Passes

namespace Zencodec.RowEncode

open Act

variable {ω κ φ ε : Type} {desc : Description φ κ} {input : Input} {plan : Plan}

/-! ### What a ledger says of rows -/

/-- What a filler keeps agrees with one row of a place only. -/
theorem Filler.Agrees.unique {f : Filler κ} {place : ℕ} {row row' : Row} (h : f.Agrees place row)
    (h' : f.Agrees place row') :
    (f.store.isMemory = true → row = row') ∧
      (f.hashes.isSome = true → digest row = digest row') := by
  constructor
  · intro hmemory
    cases hstore : f.store with
    | memory kept => exact Option.some.inj ((h.1 kept hstore).symm.trans (h'.1 kept hstore))
    | none | disk =>
      rw [hstore] at hmemory
      cases hmemory
  · intro hhashed
    obtain ⟨hashes, hhashes⟩ := Option.isSome_iff_exists.mp hhashed
    exact Option.some.inj ((h.2 hashes hhashes).symm.trans (h'.2 hashes hhashes))

/-- With one pass declared, every strip is of it. -/
theorem Ledger.pass_eq_zero {f : Filler κ} {strips : List Strip} (h : Ledger desc input f strips)
    (hmax : f.declared.max = some 1) {strip : Strip} (hs : strip ∈ strips) : strip.pass = 0 := by
  obtain ⟨pass, hpass, hle⟩ := h.passes strip hs
  have hone := (h.max pass hpass).1
  rw [hmax] at hone
  have hpos : pass + 1 ≤ 1 := of_decide_eq_true hone
  omega

/-! ### The start -/

theorem Input.eq_raster (h : input.isRaster = true) : ∃ pixels, input = .raster pixels := by
  cases input with
  | raster pixels => exact ⟨pixels, rfl⟩
  | source => cases h

/-- A raster is encoded from where it is. -/
theorem Resources.borrowed_of_offered {r : Resources} {route : EncodeRouteOffer}
    (h : route ∈ r.offers) (hborrowed : r.borrowed = true) :
    route = ⟨.borrowedRaster, .immutableBorrow⟩ := by
  simpa [offers, diskEligible, memoryAvailable, hborrowed] using h

/-- More than one pass is offered only where a changed row would be noticed. -/
theorem Resources.guarded_of_offered {r : Resources} {route : EncodeRouteOffer}
    (h : route ∈ r.offers) (hsingle : r.single = false) :
    (r.borrowed = true ∧ route.acquisition = .borrowedRaster) ∨
      route.acquisition = .memorySnapshot ∨ route.replay = .verifiedHash := by
  simp only [offers, hsingle, List.mem_append] at h
  rcases h with (h | h) | h
  · split at h
    · next hborrowed =>
      exact .inl ⟨hborrowed, by rw [List.mem_singleton.mp h]⟩
    · split at h
      · exact .inr (.inr (by rw [List.mem_singleton.mp h]; rfl))
      · cases h
  · split at h
    · exact .inr (.inr (by rw [List.mem_singleton.mp h]))
    · cases h
  · split at h
    · exact .inr (.inl (by rw [List.mem_singleton.mp h]))
    · cases h

namespace Setup

variable (s : Setup desc input plan ω ε)

/-- The filler of a setup. -/
def filler : Filler κ := .start desc s.route s.origin s.identity s.declared

theorem bare_of_raster (h : input.isRaster = true) :
    s.filler.store.isMemory = false ∧ s.filler.hashes.isSome = false ∧
      s.filler.store.isNone = true := by
  have hroute := Resources.borrowed_of_offered s.offered (s.borrowed.trans h)
  simp [filler, Filler.start, hroute, Store.isMemory, Store.isNone]

theorem going : Going desc input s.filler plan 0 (s.job : Job ω κ ε) := by
  refine ⟨⟨?_, ⟨rfl, rfl, rfl, rfl⟩, rfl, fun h => (by cases h)⟩, fun _ => ?_, rfl,
    fun _ pass hpass => ?_⟩
  · constructor
    case sized =>
      constructor
      · intro kept hkept
        simp only [job, Filler.start] at hkept
        split at hkept <;> cases hkept
        exact List.length_replicate
      · intro hashes hhashes
        simp only [job, Filler.start] at hhashes
        split at hhashes <;> cases hhashes
        exact List.length_replicate
    case fresh => exact fun _ => ⟨rfl, rfl, rfl⟩
    case order | max | min => exact fun pass hpass => by cases hpass
    case passes | nonempty | final | last | agrees => exact fun strip hs => by cases hs
    case nextRow => exact Nat.zero_le _
    case shown => exact fun h => by cases h
    case raster => exact fun _ _ _ strip hs => by cases hs
  · intro before output after heq
    cases before <;> cases heq
  · cases hpass

end Setup

/-! ### The run -/

section Run

variable [DecidableEq φ] (e : Env ω κ) (encoder : Encoder ω φ κ ε)
  (deliver : List UInt8 → Act ω κ Unit) (s : Setup desc input plan ω ε) (rounds : ℕ)

/-- All the passes are done. -/
structure Completed (desc : Description φ κ) (f : Filler κ) : Prop where
  passes : ∃ pass, f.pass = some pass ∧ f.declared.min ≤ pass + 1
  rows : f.nextRow = desc.height
  final : f.finalStarted = true

theorem run_spec : Spec (run e desc input encoder deliver plan rounds)
    (fun left t => ∃ m, Going desc input s.filler plan m t ∧ (left = false → m = rounds) ∧
      (left = true → Completed desc t.desk.filler))
    (fun _ t => Stopped desc input s.filler plan t.events) (s.job : Job ω κ ε) := by
  have hraster : input.isRaster = true →
      s.filler.store.isMemory = false ∧ s.filler.hashes.isSome = false :=
    fun h => ⟨(s.bare_of_raster h).1, (s.bare_of_raster h).2.1⟩
  have hstart := s.going
  simp only [run, spec_bind, spec_get, touchWorld]
  refine spec_atDesk hstart.stopped (spec_validate fun _ => ?_)
  refine spec_atDesk hstart.stopped ?_
  rw [spec_modify]
  refine spec_atDesk hstart.stopped (spec_onWorld fun _ _ => ?_)
  refine spec_atDesk hstart.stopped (spec_validate fun _ => ?_)
  refine spec_atDesk hstart.stopped (spec_onWorld fun _ _ => ?_)
  rw [spec_modify]
  refine Spec.mono (loop_spec rounds hraster 0 ?_) (fun left t ht => ?_) fun _ _ h => h
  · exact ⟨hstart.good, hstart.held, hstart.count, hstart.once⟩
  obtain ⟨m, hm, hrounds⟩ := ht
  rw [spec_ite]
  refine ⟨fun _ => ?_, fun hleft => ⟨m, hm, fun h => ?_, fun h => by cases h⟩⟩
  · rw [spec_bind]
    refine spec_atDesk hm.stopped (complete_spec fun hpasses hrow hfinal world => ?_)
    exact ⟨m, ⟨hm.good, hm.held, hm.count, hm.once⟩, fun h => (by cases h), fun _ =>
      ⟨hpasses, hrow, hfinal⟩⟩
  · rw [hrounds (Bool.eq_false_iff.mpr hleft), Nat.zero_add]

theorem run_stopped :
    Stopped desc input s.filler plan
      (run e desc input encoder deliver plan rounds s.job).2.events := by
  refine Spec.state (P := fun t : Job ω κ ε => Stopped desc input s.filler plan t.events) ?_
  exact (run_spec e encoder deliver s rounds).mono (fun _ _ ⟨_, h, _⟩ => h.stopped) fun _ _ h => h

/-- A run that succeeds has lent whole passes, every row of them once and in order. -/
theorem passes_of_run
    (hrun : (run e desc input encoder deliver plan rounds s.job).1 = .ok true) :
    let events := (run e desc input encoder deliver plan rounds s.job).2.events
    ∃ last, (lentStrips events).flatMap Strip.places = wholePasses desc.height (last + 1) ∧
      s.declared.min ≤ last + 1 ∧ (∀ m, s.declared.max = some m → last + 1 ≤ m) ∧
      (∀ strip ∈ lentStrips events, strip.finalPass = true ↔ strip.pass = last) ∧
      .refused ∉ events := by
  intro events
  obtain ⟨m, hgoing, -, hcompleted⟩ := (run_spec e encoder deliver s rounds).run.1 _ hrun
  obtain ⟨⟨last, hlast, hmin⟩, hrow, hfinal⟩ := hcompleted rfl
  have hledger := hgoing.good.ledger
  have hdeclared := hgoing.good.kind.declared
  refine ⟨last, ?_, ?_, fun m hm => ?_, fun strip hs => ⟨fun hflag => ?_, fun hpass => ?_⟩,
    hgoing.good.answered⟩
  · rw [hledger.order last hlast, hrow, wholePasses_succ]
  · rw [hdeclared] at hmin
    exact hmin
  · have hmax := (hledger.max last hlast).1
    rw [hdeclared] at hmax
    have hm' : s.filler.declared.max = some m := hm
    rw [hm'] at hmax
    exact of_decide_eq_true hmax
  · have hpass := (hledger.final strip hs hflag).2
    rw [hlast] at hpass
    exact (Option.some.inj hpass).symm
  · rw [hledger.last strip hs (by rw [hlast, hpass]), hfinal]

/-- Output that belongs to the final pass is not offered before a strip of it was lent. -/
theorem held_of_run (hback : plan.HoldsBack) :
    Held (run e desc input encoder deliver plan rounds s.job).2.events :=
  (run_stopped e encoder deliver s rounds).held hback

/-- Rows that are borrowed are lent as they are. -/
theorem borrowed_of_run {pixels : List Row} (hpixels : input = .raster pixels) :
    ∀ strip ∈ lentStrips (run e desc input encoder deliver plan rounds s.job).2.events,
      ∀ i < strip.rows.length, strip.rows.getD i [] = pixels.getD (strip.first + i) [] := by
  obtain ⟨f, hledger, hkind⟩ := (run_stopped e encoder deliver s rounds).sound
  have hbare := s.bare_of_raster (κ := κ) (hpixels ▸ rfl)
  exact hledger.raster pixels hpixels (hkind.store.trans hbare.2.2)

/-- A row that is lent in two passes is the same row, as far as its route can tell. -/
theorem sameRow_of_run :
    ∀ a ∈ lentStrips (run e desc input encoder deliver plan rounds s.job).2.events,
    ∀ b ∈ lentStrips (run e desc input encoder deliver plan rounds s.job).2.events,
    ∀ i < a.rows.length, ∀ j < b.rows.length, a.pass ≠ b.pass → a.first + i = b.first + j →
      digest (a.rows.getD i []) = digest (b.rows.getD j []) ∧
        (s.route.replay ≠ .verifiedHash → a.rows.getD i [] = b.rows.getD j []) := by
  intro a ha b hb i hi j hj hpass hplace
  obtain ⟨f, hledger, hkind⟩ := (run_stopped e encoder deliver s rounds).sound
  have hagrees := hledger.agrees b hb j hj
  rw [← hplace] at hagrees
  obtain ⟨hmemory, hhashed⟩ := (hledger.agrees a ha i hi).unique hagrees
  -- one pass lends no row twice; more are offered only on a route that can tell
  cases hsingle : s.resources.single with
  | true =>
    have hmax : f.declared.max = some 1 := by
      rw [hkind.declared]
      exact of_decide_eq_true (s.single.symm.trans hsingle)
    rw [hledger.pass_eq_zero hmax ha, hledger.pass_eq_zero hmax hb] at hpass
    exact absurd rfl hpass
  | false =>
    rcases Resources.guarded_of_offered s.offered hsingle with ⟨hborrowed, _⟩ | hroute | hroute
    · obtain ⟨pixels, hpixels⟩ := Input.eq_raster (s.borrowed.symm.trans hborrowed)
      have hlent := borrowed_of_run e encoder deliver s rounds hpixels
      have heq : a.rows.getD i [] = b.rows.getD j [] := by
        rw [hlent a ha i hi, hlent b hb j hj, hplace]
      exact ⟨congrArg digest heq, fun _ => heq⟩
    · have hkept : f.store.isMemory = true := by
        rw [hkind.memory]
        simp [Setup.filler, Filler.start, hroute, Store.isMemory]
      exact ⟨congrArg digest (hmemory hkept), fun _ => hmemory hkept⟩
    · have hkept : f.hashes.isSome = true := by
        rw [hkind.hashed]
        simp [Setup.filler, Filler.start, hroute]
      exact ⟨hhashed hkept, fun hne => absurd hroute hne⟩

/-- An encoder cannot keep the loop going: the rounds are bounded by the rows of the passes. -/
theorem run_is_bounded (hrounds : s.declared.max.getD u32Max * desc.height < rounds) :
    (run e desc input encoder deliver plan rounds s.job).1 ≠ .ok false := by
  intro hrun
  obtain ⟨m, hgoing, hleft, -⟩ := (run_spec e encoder deliver s rounds).run.1 _ hrun
  have hledger := hgoing.good.ledger
  have hlength := hledger.length_le
  rw [hgoing.count, hleft rfl] at hlength
  cases hpass : (run e desc input encoder deliver plan rounds s.job).2.desk.filler.pass with
  | none =>
    rw [(hledger.fresh hpass).1] at hlength
    exact absurd hlength (by rw [List.flatMap_nil, List.length_nil]; omega)
  | some pass =>
    obtain ⟨hmax, hfits⟩ := hledger.max pass hpass
    rw [hledger.order pass hpass, List.length_append, length_wholePasses, rowsOfPass,
      List.length_map, List.length_range] at hlength
    have hpasses : pass + 1 ≤ s.declared.max.getD u32Max := by
      rw [hgoing.good.kind.declared] at hmax
      cases hdeclared : s.declared.max with
      | none => exact hfits
      | some most =>
        have hdeclared' : s.filler.declared.max = some most := hdeclared
        rw [hdeclared'] at hmax
        exact of_decide_eq_true hmax
    have hrows : (pass + 1) * desc.height ≤ s.declared.max.getD u32Max * desc.height :=
      Nat.mul_le_mul_right _ hpasses
    have hnext := hledger.nextRow
    rw [Nat.succ_mul] at hrows
    omega

end Run

/-! ### A run of two passes -/

/-- A control that never stops and a source that numbers its rows. -/
def calmEnv : Env Unit Unit where
  check := Act.pure ()
  advance _ world := world
  setTotal _ world := world
  validate := Act.pure ()
  replayIdentity := Act.pure none
  readRows first rows world :=
    (.ok (), (List.range rows.length).map fun i => [UInt8.ofNat (first + i)], world)
  length_readRows := by simp
  storeRow _ _ := Act.pure ()
  loadRow _ row world := (.ok (), row, world)

/-- An encoder that makes the demands of a list and has output for the end. -/
def scripted : Encoder Unit Unit Unit (List (Demand Unit)) where
  start demands := Act.pure demands
  pendingOutput demands := if demands.isEmpty then [9] else []
  consumeOutput demands _ := demands
  pullRows
    | [] => .done (.ok .done, [])
    | d :: demands => .ask (.fill d) fun _ => .done (.ok .filled, demands)
  pushRows demands _ := Act.pure demands

def twoRows : Description Unit Unit := ⟨1, 2, 1, (), none⟩

def pulled : Plan := ⟨.replay, true, 1, Nat.one_pos⟩

def twoPasses : Setup twoRows .source pulled Unit (List (Demand Unit)) where
  resources := ⟨false, false, false, false, false, true⟩
  route := ⟨.memorySnapshot, .privateSnapshot⟩
  offered := List.mem_singleton.mpr rfl
  declared := ⟨2, some 2, Nat.two_pos, @le_of_some 2⟩
  once h := by cases h
  single := rfl
  borrowed := rfl
  origin := 0
  identity := none
  world := ()
  startup :=
    [⟨0, false, 0, 1, (), [[7], [7]]⟩, ⟨1, true, 0, 1, (), [[7]]⟩, ⟨1, true, 1, 1, (), [[7]]⟩]

def calmRun : Except (Cause Unit) Bool × Job Unit Unit (List (Demand Unit)) :=
  run calmEnv twoRows .source scripted (fun _ => Act.pure ()) pulled 8 twoPasses.job

theorem calmRun_evaluated : calmRun.1.toOption = some true ∧ lentStrips calmRun.2.events =
    [⟨0, 0, false, [[0], [1]]⟩, ⟨1, 0, true, [[0]]⟩, ⟨1, 1, true, [[1]]⟩] := by
  decide +kernel

theorem ok_of_toOption {r : Except ε Bool} {b : Bool} (h : r.toOption = some b) : r = .ok b := by
  cases r with
  | ok c => exact congrArg _ (Option.some.inj h)
  | error => cases h

theorem passes_of_run_calm :
    ∃ last, (lentStrips calmRun.2.events).flatMap Strip.places = wholePasses 2 (last + 1) ∧
      2 ≤ last + 1 ∧ (∀ m, some 2 = some m → last + 1 ≤ m) ∧
      (∀ strip ∈ lentStrips calmRun.2.events, strip.finalPass = true ↔ strip.pass = last) ∧
      .refused ∉ calmRun.2.events := by
  have hok := ok_of_toOption calmRun_evaluated.1
  unfold calmRun at hok ⊢
  exact passes_of_run calmEnv scripted (fun _ => Act.pure ()) twoPasses 8 hok

theorem held_of_run_calm : Held calmRun.2.events := by
  unfold calmRun
  exact held_of_run calmEnv scripted (fun _ => Act.pure ()) twoPasses 8 ⟨rfl, rfl⟩

theorem sameRow_of_run_calm : digest [1] = digest [1] ∧
    (ReplayEvidence.privateSnapshot ≠ .verifiedHash → ([1] : Row) = [1]) := by
  have hstrips := calmRun_evaluated.2
  unfold calmRun at hstrips
  exact sameRow_of_run calmEnv scripted (fun _ => Act.pure ()) twoPasses 8
    ⟨0, 0, false, [[0], [1]]⟩ (by rw [hstrips]; simp)
    ⟨1, 1, true, [[1]]⟩ (by rw [hstrips]; simp)
    1 (by decide) 0 (by decide) (by decide) (by decide)

theorem run_is_bounded_calm : calmRun.1 ≠ .ok false := by
  unfold calmRun
  exact run_is_bounded calmEnv scripted (fun _ => Act.pure ()) twoPasses 8 (by decide)

end Zencodec.RowEncode
